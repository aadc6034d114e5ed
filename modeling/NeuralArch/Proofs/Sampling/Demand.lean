import NeuralArch.Proofs.Layout.Onto
import NeuralArch.Proofs.Sampling.Solid

/-!
# What samplers take from the source

Samplers of different kinds take different amounts from the source, and so do
samplers of one kind: a choice among nothing and a range with one integer take
nothing, and a number below a bound may take several words before one is
accepted, which depends on the bound.  But what is taken does not depend on the
values, the ends of the range or the decimals otherwise.

* `Demand` — what a sampler takes; `draw_demand` — it takes just that.
* `demand_sampler_insert` — a sampler exchanged for one that takes the same.
* `closed_of_sample` — what is printed is not empty and has no blank at its end.
-/

namespace NeuralArch

open Number Text Lexing

/-! ## Demands -/

/-- What is taken from a source for a value. -/
inductive Demand
  | nothing
  /-- Words until one is accepted for a number below a bound. -/
  | number (w : Draw.Width) (n : Nat)
  /-- One word. -/
  | word
deriving DecidableEq, Repr

namespace Demand

variable {σ : Type} [RandomSource σ]

/-- Takes what is demanded. -/
def draw (patience : Nat) : Demand → Draw σ Unit
  | nothing => return ()
  | number w n => do
    let _ ← Draw.below patience w n
    return ()
  | word => do
    let _ ← Draw.raw .word
    return ()

/-- What a choice among some values takes. -/
def ofCount (n : Nat) : Demand := if n = 0 then nothing else number .half n

end Demand

namespace Sampler

/-- What a sampler takes for a value. -/
def demand : Sampler → Demand
  | choice values => .ofCount values.length
  | uniform min max _ => if min < max then .word else .nothing
  | scientific values => .ofCount values.length
  | intRange min max =>
    if min < max then
      let size := (max.toInt - min.toInt + 1).toNat
      if size = Draw.Width.size .word then .word else .number .word size
    else .nothing

end Sampler

namespace Draw

variable {σ α : Type} [RandomSource σ] {patience : Nat} {s t : σ}

theorem draw_ofCount {xs : List α} {x : Option α} (h : choose patience xs s = .done (x, t)) :
    (Demand.ofCount xs.length).draw patience s = .done ((), t) := by
  cases xs with
  | nil =>
    cases h
    rfl
  | cons a xs =>
    rw [choose, if_neg (by simp)] at h
    obtain ⟨i, u, hi, hpure⟩ := bind_eq_done.1 h
    obtain ⟨-, rfl⟩ := pure_eq_done.1 hpure
    exact bind_eq_done.2 ⟨i, _, hi, rfl⟩

end Draw

namespace Sampler

variable {σ : Type} [RandomSource σ]

/-- A sampler takes what it demands. -/
theorem draw_demand {sampler : Sampler} {patience : Nat} {s t : σ} {text : String}
    (h : sampler.sample patience s = .done (text, t)) :
    sampler.demand.draw patience s = .done ((), t) := by
  cases sampler with
  | choice values =>
    obtain ⟨x, u, hx, hpure⟩ := Draw.bind_eq_done.1 h
    obtain ⟨-, rfl⟩ := Draw.pure_eq_done.1 hpure
    exact Draw.draw_ofCount hx
  | scientific values =>
    obtain ⟨x, u, hx, hpure⟩ := Draw.bind_eq_done.1 h
    obtain ⟨-, rfl⟩ := Draw.pure_eq_done.1 hpure
    exact Draw.draw_ofCount hx
  | uniform min max decimals =>
    obtain ⟨x, u, hx, hpure⟩ := Draw.bind_eq_done.1 h
    obtain ⟨-, rfl⟩ := Draw.pure_eq_done.1 hpure
    rw [Draw.float] at hx
    rw [demand]
    by_cases hlt : min < max
    · rw [if_pos hlt] at hx ⊢
      dsimp only at hx
      split at hx
      · obtain ⟨word, v, hword, hpure⟩ := Draw.bind_eq_done.1 hx
        obtain ⟨-, rfl⟩ := Draw.pure_eq_done.1 hpure
        exact Draw.bind_eq_done.2 ⟨word, _, hword, rfl⟩
      · cases hx
    · rw [if_neg hlt] at hx ⊢
      obtain ⟨-, rfl⟩ := Draw.pure_eq_done.1 hx
      rfl
  | intRange min max =>
    obtain ⟨i, u, hi, hpure⟩ := Draw.bind_eq_done.1 h
    obtain ⟨-, rfl⟩ := Draw.pure_eq_done.1 hpure
    rw [Draw.integer] at hi
    rw [demand]
    by_cases hlt : min < max
    · rw [if_pos hlt] at hi ⊢
      dsimp only at hi ⊢
      split at hi
      · next hfull =>
        rw [if_pos hfull]
        obtain ⟨word, v, hword, hpure⟩ := Draw.bind_eq_done.1 hi
        obtain ⟨-, rfl⟩ := Draw.pure_eq_done.1 hpure
        exact Draw.bind_eq_done.2 ⟨word, _, hword, rfl⟩
      · next hfull =>
        rw [if_neg hfull]
        obtain ⟨k, v, hk, hpure⟩ := Draw.bind_eq_done.1 hi
        obtain ⟨-, rfl⟩ := Draw.pure_eq_done.1 hpure
        exact Draw.bind_eq_done.2 ⟨k, _, hk, rfl⟩
    · rw [if_neg hlt] at hi ⊢
      obtain ⟨-, rfl⟩ := Draw.pure_eq_done.1 hi
      rfl

/-- Samplers that demand the same leave the same of a source. -/
theorem eq_of_demand_eq {sampler sampler' : Sampler} (h : sampler.demand = sampler'.demand)
    {patience : Nat} {s t t' : σ} {text text' : String}
    (hrun : sampler.sample patience s = .done (text, t))
    (hrun' : sampler'.sample patience s = .done (text', t')) : t = t' := by
  have hdraw := draw_demand hrun
  rw [h, draw_demand hrun'] at hdraw
  exact ((Prod.mk.inj (Outcome.done.inj hdraw)).2).symm

end Sampler

/-! ## Tables -/

namespace SamplingTable

/-- Tables whose samplers demand the same, name by name, have samplers that demand the same for
every placeholder. -/
theorem demand_sampler {t t' : SamplingTable}
    (hget : ∀ name, (t.get? name).map Sampler.demand = (t'.get? name).map Sampler.demand)
    (hint : t.intFallback.demand = t'.intFallback.demand)
    (hfloat : t.floatFallback.demand = t'.floatFallback.demand) (placeholder : String)
    (param : Option String) :
    (t.sampler placeholder param).demand = (t'.sampler placeholder param).demand := by
  have hfallback : ∀ u : SamplingTable, (u.sampler placeholder param).demand =
      (((param.bind fun name => (u.get? name).map Sampler.demand).or
        ((u.get? placeholder).map Sampler.demand)).getD
          (if placeholder.toUpper = "FLOAT" then u.floatFallback.demand
            else u.intFallback.demand)) := by
    intro u
    rw [sampler]
    cases hparam : param.bind u.get? with
    | some s =>
      obtain ⟨name, rfl, hname⟩ := Option.bind_eq_some_iff.1 hparam
      simp [hname]
    | none =>
      have hnone : (param.bind fun name => (u.get? name).map Sampler.demand) = none := by
        cases param with
        | none => rfl
        | some name =>
          rw [Option.bind_some] at hparam
          simp [hparam]
      rw [hnone]
      cases u.get? placeholder with
      | some s => rfl
      | none =>
        show (if placeholder.toUpper = "FLOAT" then u.floatFallback else u.intFallback).demand =
          if placeholder.toUpper = "FLOAT" then u.floatFallback.demand else u.intFallback.demand
        split <;> rfl
  rw [hfallback t, hfallback t', hget placeholder, hint, hfloat]
  simp only [hget]

/-- A sampler can be exchanged for one that demands the same. -/
theorem demand_sampler_insert {t : SamplingTable} {name : String} {s s' : Sampler}
    (hs : t.get? name = some s) (hdemand : s'.demand = s.demand) (placeholder : String)
    (param : Option String) : ((t.insert name s').sampler placeholder param).demand =
      (t.sampler placeholder param).demand := by
  have hget : ∀ other, ((t.insert name s').get? other).map Sampler.demand =
      (t.get? other).map Sampler.demand := by
    intro other
    rw [get?, insert, Std.ExtTreeMap.getElem?_insert]
    split
    · next heq =>
      have hother : t.get? other = some s := by
        rw [get?, ← Std.LawfulEqCmp.compare_eq_iff_eq.1 heq]
        exact hs
      rw [hother, Option.map_some, Option.map_some, hdemand]
    · rfl
  exact demand_sampler hget rfl rfl placeholder param

end SamplingTable

/-! ## What is printed -/

namespace Sampler

open Layout Page

theorem text_ne_nil {n : Numeral} (h : n.WellFormed) (plus : Bool) : n.text plus ≠ [] := by
  have hwhole : n.whole ≠ [] := (mem_digits_iff.1 h.whole).1
  rw [Numeral.text]
  intro hnil
  simp only [List.append_eq_nil_iff] at hnil
  exact hwhole hnil.1.1.2

theorem closed_intText (i : Int64) : Closed (intText i) := by
  refine closed_of_not_isBlank ?_ (not_isBlank_of_mem_intText i)
  show (Int.repr i.toInt).toList ≠ []
  cases i.toInt with
  | ofNat n =>
    show (Nat.repr n).toList ≠ []
    rw [Nat.toList_repr]
    exact digitsOfNat_ne_nil n
  | negSucc n =>
    show ("-" ++ Nat.repr (n + 1)).toList ≠ []
    rw [String.toList_append]
    exact List.cons_ne_nil _ _

theorem closed_fixed (places : Nat) (x : Float) : Closed (fixed places x) := by
  refine closed_of_not_isBlank ?_ (not_isBlank_of_mem_fixed places x)
  rw [fixed]
  split
  · decide
  · next negative _ => cases negative <;> decide
  · dsimp only
    rw [String.toList_ofList]
    exact text_ne_nil (wellFormed_plain _ _ _ _) false

theorem closed_oneDigit (x : Float) : Closed (oneDigit x) := by
  refine closed_of_not_isBlank ?_ (not_isBlank_of_mem_oneDigit x)
  rw [oneDigit]
  split
  · decide
  · next negative _ => cases negative <;> decide
  · dsimp only
    rw [String.toList_ofList]
    split
    · exact text_ne_nil (wellFormed_scientific _ _ _) false
    · split
      · exact text_ne_nil (wellFormed_scientific _ _ _) false
      · exact text_ne_nil (wellFormed_scientific _ _ _) false

/-- What is printed is not empty, and has no blank at its end. -/
theorem closed_of_sample {σ : Type} [RandomSource σ] {sampler : Sampler} {patience : Nat}
    {s t : σ} {text : String} (h : sampler.sample patience s = .done (text, t)) : Closed text := by
  cases sampler with
  | choice values =>
    obtain ⟨x, u, -, hpure⟩ := Draw.bind_eq_done.1 h
    obtain ⟨rfl, -⟩ := Draw.pure_eq_done.1 hpure
    cases x with
    | none => exact closed_of_not_isBlank (by decide) (not_isBlank_of_all (by decide))
    | some i => exact closed_intText i
  | uniform min max decimals =>
    obtain ⟨x, u, -, hpure⟩ := Draw.bind_eq_done.1 h
    obtain ⟨rfl, -⟩ := Draw.pure_eq_done.1 hpure
    exact closed_fixed _ x
  | scientific values =>
    obtain ⟨x, u, -, hpure⟩ := Draw.bind_eq_done.1 h
    obtain ⟨rfl, -⟩ := Draw.pure_eq_done.1 hpure
    cases x with
    | none => exact closed_of_not_isBlank (by decide) (not_isBlank_of_all (by decide))
    | some x => exact closed_oneDigit x
  | intRange min max =>
    obtain ⟨i, u, -, hpure⟩ := Draw.bind_eq_done.1 h
    obtain ⟨rfl, -⟩ := Draw.pure_eq_done.1 hpure
    exact closed_intText i

end Sampler

end NeuralArch
