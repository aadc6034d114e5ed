import NeuralArch.Sampling

/-!
# Computations that come to an end

A random computation ends when it is done, stops at a fault or gives up on a
draw; only a descent that is cut short does not.  Draws do not descend, so all
of them end, and computations put together from such as end do so too.

* `Ends`, `Ends.bind` — computations that end, and one behind the other.
* `Agrees`, `Agrees.bind` — computations that do the same wherever the first
  one ends.
* `Draw.ends_sample` — a value for a placeholder.
-/

namespace NeuralArch

variable {τ α β : Type}

/-- From every state a computation comes to an end. -/
def Ends (x : StateT τ Outcome α) : Prop := ∀ s, x s ≠ .unfinished

/-- Where a computation ends, another one does the same. -/
def Agrees (x y : StateT τ Outcome α) : Prop := ∀ s, x s ≠ .unfinished → y s = x s

/-! ## Sequences -/

/-- A computation that is one step ends. -/
theorem ends_step (f : τ → α × τ) : Ends (fun s => .done (f s)) := by
  intro s
  simp

/-- A computation that stops at a fault ends. -/
theorem ends_fault (f : Fault) : Ends (fun _ : τ => (.fault f : Outcome (α × τ))) := by
  intro s
  simp

theorem ends_pure (a : α) : Ends (pure a : StateT τ Outcome α) := ends_step fun s => (a, s)

theorem bind_ne_unfinished {x : Outcome α} {f : α → Outcome β} (hx : x ≠ .unfinished)
    (hf : ∀ a, x = .done a → f a ≠ .unfinished) : (x >>= f) ≠ .unfinished := by
  cases x with
  | done a => exact hf a rfl
  | fault e => simp
  | undrawn => simp
  | unfinished => exact absurd rfl hx

/-- What follows needs to end only behind what the first part gives. -/
theorem Ends.bind {x : StateT τ Outcome α} {f : α → StateT τ Outcome β} (hx : Ends x)
    (hf : ∀ s a t, x s = .done (a, t) → Ends (f a)) : Ends (x >>= f) :=
  fun s => bind_ne_unfinished (hx s) fun r h => hf s r.1 r.2 h r.2

theorem Ends.seq {x : StateT τ Outcome α} {f : α → StateT τ Outcome β} (hx : Ends x)
    (hf : ∀ a, Ends (f a)) : Ends (x >>= f) :=
  hx.bind fun _ a _ _ => hf a

theorem Ends.map {x : StateT τ Outcome α} (hx : Ends x) (f : α → β) : Ends (f <$> x) := by
  rw [map_eq_pure_bind]
  exact hx.seq fun a => ends_pure (f a)

theorem ends_foldlM {f : β → α → StateT τ Outcome β} (hf : ∀ b a, Ends (f b a)) (l : List α)
    (b : β) : Ends (l.foldlM f b) := by
  induction l generalizing b with
  | nil => exact ends_pure b
  | cons a l ih =>
    rw [List.foldlM_cons]
    exact (hf b a).seq ih

theorem ends_mapM {f : α → StateT τ Outcome β} (hf : ∀ a, Ends (f a)) (l : List α) :
    Ends (l.mapM f) := by
  induction l with
  | nil => exact ends_pure []
  | cons a l ih =>
    rw [List.mapM_cons]
    exact (hf a).seq fun b => ih.seq fun bs => ends_pure (b :: bs)

theorem Agrees.refl (x : StateT τ Outcome α) : Agrees x x := fun _ _ => rfl

theorem Agrees.trans {x y z : StateT τ Outcome α} (hxy : Agrees x y) (hyz : Agrees y z) :
    Agrees x z := by
  intro s hs
  have hy : y s = x s := hxy s hs
  rw [hyz s (by rwa [hy]), hy]

theorem Agrees.bind {x y : StateT τ Outcome α} {f f' : α → StateT τ Outcome β}
    (hxy : Agrees x y) (hf : ∀ a, Agrees (f a) (f' a)) : Agrees (x >>= f) (y >>= f') := by
  intro s hs
  have hunfold : ∀ (z : StateT τ Outcome α) (h : α → StateT τ Outcome β),
      (z >>= h) s = (z s >>= fun r => h r.1 r.2) := fun _ _ => rfl
  rw [hunfold] at hs
  rw [hunfold, hunfold]
  cases h : x s with
  | done r =>
    rw [h] at hs
    rw [hxy s (by simp [h]), h]
    exact hf r.1 r.2 hs
  | fault e => rw [hxy s (by simp [h]), h]; rfl
  | undrawn => rw [hxy s (by simp [h]), h]; rfl
  | unfinished =>
    rw [h] at hs
    exact absurd rfl hs

/-! ## Draws -/

namespace Draw

open RandomSource

variable {σ : Type}

theorem ends_fail (f : Fault) : Ends (fail f : Draw σ α) := ends_fault f

variable [RandomSource σ]

theorem ends_raw (w : Width) : Ends (raw w : Draw σ Nat) := by
  cases w with
  | half => exact ends_step fun s => ((nextHalf s).1.toNat, (nextHalf s).2)
  | word => exact ends_step fun s => ((nextWord s).1.toNat, (nextWord s).2)

theorem ends_offer (w : Width) (n patience : Nat) : Ends (offer w n patience : Draw σ Nat) := by
  induction patience with
  | zero =>
    intro s
    simp [offer]
  | succ patience ih =>
    refine (ends_raw w).seq fun word => ?_
    cases accept? w n word with
    | some k => exact ends_pure k
    | none => exact ih

theorem ends_below (patience : Nat) (w : Width) (n : Nat) :
    Ends (below patience w n : Draw σ Nat) := by
  rw [below]
  split
  · exact ends_fail _
  · exact ends_offer w n patience

theorem ends_choose (patience : Nat) (xs : List α) :
    Ends (choose patience xs : Draw σ (Option α)) := by
  rw [choose]
  split
  · exact ends_pure none
  · exact (ends_below _ _ _).seq fun i => ends_pure xs[i]?

theorem ends_chance (p : Float) : Ends (chance p : Draw σ Bool) := by
  rw [chance]
  split
  · exact ends_pure true
  · split
    · exact (ends_raw .word).seq fun _ => ends_pure _
    · exact ends_fail _

theorem ends_integer (patience : Nat) (min max : Int64) :
    Ends (integer patience min max : Draw σ Int64) := by
  rw [integer]
  split
  · dsimp only
    split
    · exact (ends_raw .word).seq fun _ => ends_pure _
    · exact (ends_below _ _ _).seq fun _ => ends_pure _
  · exact ends_pure min

theorem ends_float (min max : Float) : Ends (float min max : Draw σ Float) := by
  rw [float]
  split
  · dsimp only
    split
    · exact (ends_raw .word).seq fun _ => ends_pure _
    · exact ends_fail _
  · exact ends_pure min

theorem ends_indices (patience length amount : Nat) :
    Ends (indices patience length amount : Draw σ (List Nat)) := by
  rw [indices]
  split
  · exact ends_fail _
  · split
    · exact (ends_foldlM (fun xs i => (ends_below _ _ _).seq fun j => ends_pure _) _ _).seq
        fun xs => ends_pure _
    · exact ends_foldlM (fun taken bound => (ends_below _ _ _).seq fun i => ends_pure _) _ _

/-- The value for a placeholder is drawn to the end. -/
theorem ends_sample (t : SamplingTable) (patience : Nat) (name : String)
    (param : Option String) : Ends (t.sample patience name param : Draw σ String) := by
  rw [SamplingTable.sample]
  cases t.sampler name param with
  | choice values => exact (ends_choose _ _).seq fun _ => ends_pure _
  | uniform min max decimals => exact (ends_float _ _).seq fun _ => ends_pure _
  | scientific values => exact (ends_choose _ _).seq fun _ => ends_pure _
  | intRange min max => exact (ends_integer _ _ _).seq fun _ => ends_pure _

end Draw

end NeuralArch
