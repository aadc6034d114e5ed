import NeuralArch.Random.Draw

/-!
# What draws give

A draw from any source gives a value with the properties that its kind of draw
promises, unless the source never offers anything acceptable.  It does not
fault where its arguments are in order.

* `Outcome.Yields`, `Draw.Gives` — a value with a property, or none drawn.
* `gives_below`, `gives_choose`, `gives_indices` — a number below a bound, a
  member of a list, distinct indices.
-/

namespace NeuralArch

namespace Outcome

variable {α β : Type} {P Q : α → Prop} {R : β → Prop}

/-- A computation is done with a value that has a property, or no value is drawn. -/
def Yields (x : Outcome α) (Q : α → Prop) : Prop :=
  match x with
  | done a => Q a
  | undrawn => True
  | fault _ => False
  | unfinished => False

theorem Yields.mono {x : Outcome α} (h : x.Yields P) (hPQ : ∀ a, P a → Q a) : x.Yields Q := by
  cases x with
  | done a => exact hPQ a h
  | undrawn => trivial
  | fault f => exact h
  | unfinished => exact h

theorem Yields.bind {x : Outcome α} {f : α → Outcome β} (h : x.Yields P)
    (hf : ∀ a, P a → (f a).Yields R) : (x >>= f).Yields R := by
  cases x with
  | done a => exact hf a h
  | undrawn => trivial
  | fault f => exact h.elim
  | unfinished => exact h.elim

/-- What is drawn, is drawn to the end. -/
theorem Yields.exists_done {x : Outcome α} (h : x.Yields Q) (hdrawn : x ≠ .undrawn) :
    ∃ a, x = .done a ∧ Q a := by
  cases x with
  | done a => exact ⟨a, rfl, h⟩
  | undrawn => exact absurd rfl hdrawn
  | fault f => exact h.elim
  | unfinished => exact h.elim

/-- Whether a computation is done. -/
def isDone : Outcome α → Bool
  | done _ => true
  | _ => false

theorem ne_undrawn_of_isDone {x : Outcome α} (h : x.isDone = true) : x ≠ .undrawn := by
  rintro rfl
  exact Bool.false_ne_true h

end Outcome

namespace Draw

variable {σ : Type} {α β : Type} {P Q : α → Prop} {R : β → Prop}

theorem bind_apply (d : Draw σ α) (f : α → Draw σ β) (s : σ) :
    (d >>= f) s = (d s >>= fun r => f r.1 r.2) := rfl

theorem get_bind (f : σ → Draw σ β) (s : σ) : (get >>= f) s = f s s := rfl

theorem bind_eq_done {d : Draw σ α} {f : α → Draw σ β} {s t : σ} {b : β} :
    (d >>= f) s = .done (b, t) ↔ ∃ a u, d s = .done (a, u) ∧ f a u = .done (b, t) := by
  rw [bind_apply, Outcome.bind_eq_done]
  constructor
  · rintro ⟨⟨a, u⟩, hd, hf⟩
    exact ⟨a, u, hd, hf⟩
  · rintro ⟨a, u, hd, hf⟩
    exact ⟨(a, u), hd, hf⟩

theorem pure_eq_done {a b : α} {s t : σ} :
    (pure a : Draw σ α) s = .done (b, t) ↔ a = b ∧ s = t := by
  have hunfold : (pure a : Draw σ α) s = .done (a, s) := rfl
  rw [hunfold, Outcome.done.injEq, Prod.mk.injEq]

/-- A draw ends where its value, looked at alone, is there. -/
theorem exists_rest {drawn : Outcome (α × σ)} {a : α}
    (h : (drawn >>= fun r => .done r.1) = .done a) : ∃ t, drawn = .done (a, t) := by
  obtain ⟨⟨_, t⟩, hdone, hvalue⟩ := Outcome.bind_eq_done.1 h
  obtain rfl := Outcome.done.inj hvalue
  exact ⟨t, hdone⟩

/-- A draw from any source gives a value with a property, or none is drawn. -/
def Gives (d : Draw σ α) (Q : α → Prop) : Prop := ∀ s, (d s).Yields fun r => Q r.1

theorem gives_pure {a : α} (h : Q a) : (pure a : Draw σ α).Gives Q := fun _ => h

theorem Gives.mono {d : Draw σ α} (h : d.Gives P) (hPQ : ∀ a, P a → Q a) : d.Gives Q :=
  fun s => (h s).mono fun r => hPQ r.1

theorem Gives.bind {d : Draw σ α} {f : α → Draw σ β} (h : d.Gives P)
    (hf : ∀ a, P a → (f a).Gives R) : (d >>= f).Gives R :=
  fun s => (h s).bind fun r hr => hf r.1 hr r.2

/-- What is drawn has the property. -/
theorem Gives.of_done {d : Draw σ α} (h : d.Gives Q) {s t : σ} {a : α}
    (hd : d s = .done (a, t)) : Q a := by
  have hyields := h s
  rwa [hd] at hyields

/-- What holds at the start of a fold and is kept by each step, holds at the end.  A step may
use what it follows. -/
theorem gives_foldlM {f : β → α → Draw σ β} {I : List α → β → Prop} {l : List α} {b : β}
    (hstart : I [] b)
    (hstep : ∀ before a after b, l = before ++ a :: after → I before b →
      (f b a).Gives (I (before ++ [a]))) : (l.foldlM f b).Gives (I l) := by
  suffices h : ∀ after before b, l = before ++ after → I before b →
      (after.foldlM f b).Gives (I l) from h l [] b rfl hstart
  intro after
  induction after with
  | nil =>
    intro before b hl hI
    rw [List.append_nil] at hl
    rw [List.foldlM_nil, hl]
    exact gives_pure hI
  | cons a after ih =>
    intro before b hl hI
    rw [List.foldlM_cons]
    exact (hstep before a after b hl hI).bind fun b' hI' =>
      ih (before ++ [a]) b' (by simp [hl]) hI'

variable [RandomSource σ]

/-! ## Numbers and members -/

theorem gives_raw (w : Width) : (raw w : Draw σ Nat).Gives (· < w.size) := by
  intro s
  cases w with
  | half => exact (RandomSource.nextHalf s).1.toNat_lt
  | word => exact (RandomSource.nextWord s).1.toNat_lt

theorem gives_offer (w : Width) {n : Nat} (hn : 0 < n) (patience : Nat) :
    (offer w n patience : Draw σ Nat).Gives (· < n) := by
  induction patience with
  | zero => exact fun _ => trivial
  | succ patience ih =>
    refine (gives_raw w).bind fun word hword => ?_
    cases h : accept? w n word with
    | some k => exact gives_pure (accept?_lt hn hword h)
    | none => exact ih

theorem gives_below (patience : Nat) (w : Width) {n : Nat} (hn : 0 < n) :
    (below patience w n : Draw σ Nat).Gives (· < n) := by
  rw [below, if_neg (by omega)]
  exact gives_offer w hn patience

/-- Of a list that is not empty a member is chosen. -/
theorem gives_choose (patience : Nat) {xs : List α} (h : xs ≠ []) :
    (choose patience xs : Draw σ (Option α)).Gives fun r => ∃ x ∈ xs, r = some x := by
  have hpos : 0 < xs.length := List.length_pos_iff.2 h
  rw [choose, if_neg (by simpa using h)]
  refine (gives_below patience .half hpos).bind fun i hi => gives_pure ?_
  exact ⟨xs[i], List.getElem_mem hi, List.getElem?_eq_getElem hi⟩

theorem gives_chance {p : Float} (h : (p == 1 || (0 ≤ p && p < 1)) = true) :
    (chance p : Draw σ Bool).Gives fun _ => True := by
  rw [chance]
  split
  · exact gives_pure trivial
  · next hone =>
    rw [if_pos (by simpa [hone] using h)]
    exact (gives_raw .word).bind fun word _ => gives_pure trivial

/-! ## Distinct indices -/

theorem perm_swap {xs : List Nat} {i j : Nat} : (swap xs i j).Perm xs := by
  unfold swap
  split
  · next a b ha hb =>
    obtain ⟨hi, rfl⟩ := List.getElem?_eq_some_iff.1 ha
    obtain ⟨hj, rfl⟩ := List.getElem?_eq_some_iff.1 hb
    exact List.set_set_perm hi hj
  · exact .refl xs

/-- Distinct indices, as many as are asked for. -/
structure Selects (length amount : Nat) (is : List Nat) : Prop where
  nodup : is.Nodup
  length_eq : is.length = amount
  lt : ∀ i ∈ is, i < length

theorem gives_indicesBySwap (patience : Nat) {length amount : Nat} (h : amount ≤ length) :
    (indicesBySwap patience length amount : Draw σ (List Nat)).Gives (Selects length amount) := by
  have hfold : ((List.range amount).foldlM (fun xs i => do
        let j ← below patience .half (length - i)
        return swap xs i (i + j)) (List.range length) : Draw σ (List Nat)).Gives
      fun xs => xs.Perm (List.range length) := by
    refine gives_foldlM (I := fun _ xs => List.Perm xs (List.range length)) (.refl _) ?_
    intro before i after xs hl hperm
    have hi : i < amount := by
      rw [← List.mem_range, hl]
      exact List.mem_append_right _ (List.mem_cons_self ..)
    exact (gives_below patience .half (by omega)).bind fun j _ =>
      gives_pure (perm_swap.trans hperm)
  refine hfold.bind fun xs hperm => gives_pure ⟨?_, ?_, ?_⟩
  · exact (hperm.nodup_iff.2 List.nodup_range).sublist (List.take_sublist _ _)
  · rw [List.length_take, hperm.length_eq, List.length_range]
    omega
  · intro i hi
    rw [← List.mem_range]
    exact hperm.mem_iff.1 (List.mem_of_mem_take hi)

/-- A bound stands for an index that is taken already, and is itself not taken yet. -/
theorem Selects.insert {bound amount i : Nat} {taken : List Nat} (h : Selects bound amount taken)
    (hi : i < bound + 1) :
    Selects (bound + 1) (amount + 1) (taken ++ [if taken.contains i then bound else i]) := by
  have hnew : (if taken.contains i then bound else i) ∉ taken := by
    split
    · intro hmem
      exact absurd (h.lt bound hmem) (Nat.lt_irrefl bound)
    · next hfree => simpa using hfree
  have hlt : (if taken.contains i then bound else i) < bound + 1 := by
    split
    · exact Nat.lt_succ_self bound
    · exact hi
  refine ⟨?_, by simp [h.length_eq], ?_⟩
  · rw [List.nodup_append]
    refine ⟨h.nodup, by simp, fun a ha b hb hab => ?_⟩
    rw [List.mem_singleton] at hb
    exact hnew (hb ▸ hab ▸ ha)
  · intro k hk
    rcases List.mem_append.1 hk with hk | hk
    · exact Nat.lt_succ_of_lt (h.lt k hk)
    · rw [List.mem_singleton.1 hk]
      exact hlt

/-- What stands at a place of a range of naturals. -/
theorem eq_of_range'_eq {start amount i : Nat} {before after : List Nat}
    (h : List.range' start amount = before ++ i :: after) : i = start + before.length := by
  have hlt : before.length < amount := by
    have hlength := congrArg List.length h
    rw [List.length_range', List.length_append, List.length_cons] at hlength
    omega
  have hat : (List.range' start amount)[before.length]? = some i := by
    rw [h, List.getElem?_append_right (Nat.le_refl _), Nat.sub_self]
    rfl
  rw [List.getElem?_range' hlt, Option.some.injEq] at hat
  omega

theorem gives_indicesByBound (patience : Nat) {length amount : Nat} (h : amount ≤ length) :
    (indicesByBound patience length amount : Draw σ (List Nat)).Gives
      (Selects length amount) := by
  have hfold : ((List.range' (length - amount) amount).foldlM (fun taken bound => do
        let i ← below patience .half (bound + 1)
        return taken ++ [if taken.contains i then bound else i]) [] : Draw σ (List Nat)).Gives
      (Selects (length - amount + (List.range' (length - amount) amount).length)
        (List.range' (length - amount) amount).length) := by
    refine gives_foldlM (I := fun before taken =>
      Selects (length - amount + before.length) before.length taken)
      ⟨List.nodup_nil, rfl, by simp⟩ ?_
    intro before bound after taken hl htaken
    rw [← eq_of_range'_eq hl] at htaken
    refine (gives_below patience .half (Nat.succ_pos bound)).bind fun i hi => gives_pure ?_
    rw [List.length_append, List.length_singleton, ← Nat.add_assoc, ← eq_of_range'_eq hl]
    exact htaken.insert hi
  rw [List.length_range', Nat.sub_add_cancel h] at hfold
  exact hfold

theorem gives_indices (patience : Nat) {length amount : Nat} (h : amount ≤ length) :
    (indices patience length amount : Draw σ (List Nat)).Gives (Selects length amount) := by
  rw [indices, if_neg (by omega)]
  split
  · exact gives_indicesBySwap patience h
  · exact gives_indicesByBound patience h

end Draw

end NeuralArch
