import NeuralArch.Proofs.Lexing.Longest
import NeuralArch.Proofs.Number.Layout
import NeuralArch.Proofs.Random.Draw
import NeuralArch.Sampling

/-!
# Samplers do not fault

A sampler gives a text for any source.  Only a range of floats has to be looked
at: its length must be a finite float.  Whatever is drawn, what is written has no
blank.

* `Sampler.Sound` — the samplers whose range has a length.
* `not_isBlank_of_mem_fixed`, `not_isBlank_of_mem_oneDigit` — the texts of floats.
* `gives_solid` — a text without blanks.
* `sound_standard` — the built-in table has such samplers only.
-/

namespace NeuralArch

open Number Text Lexing

/-! ## Texts of numbers -/

theorem not_isBlank_of_isNumeral {c : Char} (h : isNumeral c = true) : isBlank c = false := by
  have hinner := isInner_of_isNumeral h
  rw [isInner, Bool.and_eq_true, Bool.not_eq_true'] at hinner
  exact hinner.1

theorem Number.Numeral.WellFormed.isNumeral_of_mem {n : Numeral} (h : n.WellFormed) {plus : Bool} :
    ∀ c ∈ n.text plus, isNumeral c = true := by
  have hwhole := isNumeral_of_mem_digits h.whole
  have hfraction : ∀ c ∈ n.fraction, isNumeral c = true := fun c hc =>
    isNumeral_of_isDigit (h.fraction c hc)
  have hpower : ∀ p ∈ n.power, ∀ c ∈ p.2, isNumeral c = true := fun p hp =>
    isNumeral_of_mem_digits (h.power p hp)
  rw [Numeral.text]
  refine List.forall_mem_append.2 ⟨List.forall_mem_append.2 ⟨List.forall_mem_append.2
    ⟨?_, hwhole⟩, ?_⟩, ?_⟩
  · split <;> simp [isNumeral]
  · split
    · simp
    · exact List.forall_mem_cons.2 ⟨rfl, hfraction⟩
  · split
    · simp
    · next ds hp =>
      exact List.forall_mem_cons.2 ⟨rfl, List.forall_mem_cons.2 ⟨rfl, hpower _ hp⟩⟩
    · next ds hp =>
      split
      · exact List.forall_mem_cons.2 ⟨rfl, List.forall_mem_cons.2 ⟨rfl, hpower _ hp⟩⟩
      · exact List.forall_mem_cons.2 ⟨rfl, hpower _ hp⟩

theorem not_isBlank_of_mem_text {n : Numeral} (h : n.WellFormed) {plus : Bool} {c : Char}
    (hc : c ∈ n.text plus) : isBlank c = false :=
  not_isBlank_of_isNumeral (h.isNumeral_of_mem c hc)

/-- The names of the values without digits. -/
theorem not_isBlank_of_mem_name (negative : Bool) :
    (∀ c ∈ "NaN".toList, isBlank c = false) ∧
      ∀ c ∈ (if negative then "-inf" else "inf").toList, isBlank c = false := by
  refine ⟨not_isBlank_of_all (by decide), not_isBlank_of_all ?_⟩
  cases negative <;> decide

theorem not_isBlank_of_mem_fixed (places : Nat) (x : Float) :
    ∀ c ∈ (fixed places x).toList, isBlank c = false := by
  rw [fixed]
  split
  · exact (not_isBlank_of_mem_name false).1
  · next negative _ => exact (not_isBlank_of_mem_name negative).2
  · dsimp only
    rw [String.toList_ofList]
    exact fun c hc => not_isBlank_of_mem_text (wellFormed_plain _ _ _ _) hc

theorem not_isBlank_of_mem_oneDigit (x : Float) :
    ∀ c ∈ (oneDigit x).toList, isBlank c = false := by
  rw [oneDigit]
  split
  · exact (not_isBlank_of_mem_name false).1
  · next negative _ => exact (not_isBlank_of_mem_name negative).2
  · dsimp only
    rw [String.toList_ofList]
    intro c hc
    split at hc
    · exact not_isBlank_of_mem_text (wellFormed_scientific _ _ _) hc
    · split at hc
      · exact not_isBlank_of_mem_text (wellFormed_scientific _ _ _) hc
      · exact not_isBlank_of_mem_text (wellFormed_scientific _ _ _) hc

theorem not_isBlank_of_mem_intText (i : Int64) :
    ∀ c ∈ (Sampler.intText i).toList, isBlank c = false := by
  have hnat : ∀ n : Nat, ∀ c ∈ (Nat.repr n).toList, isBlank c = false := by
    intro n c hc
    rw [Nat.toList_repr] at hc
    exact not_isBlank_of_isNumeral (isNumeral_of_isDigit (isDigit_of_mem_digitsOfNat hc))
  show ∀ c ∈ (Int.repr i.toInt).toList, isBlank c = false
  cases i.toInt with
  | ofNat n => exact hnat n
  | negSucc n =>
    show ∀ c ∈ ("-" ++ Nat.repr (n + 1)).toList, isBlank c = false
    rw [String.toList_append]
    exact List.forall_mem_append.2 ⟨not_isBlank_of_all (by decide), hnat (n + 1)⟩

/-! ## Draws -/

namespace Draw

variable {σ : Type} [RandomSource σ]

/-- What is chosen is a member, if anything is. -/
theorem gives_choose_mem {α : Type} (patience : Nat) (xs : List α) :
    (choose patience xs : Draw σ (Option α)).Gives fun r => ∀ x ∈ r, x ∈ xs := by
  by_cases hnil : xs = []
  · subst hnil
    exact gives_pure (by simp)
  · refine (gives_choose patience hnil).mono fun r hr x hx => ?_
    obtain ⟨y, hy, rfl⟩ := hr
    exact Option.some.inj hx ▸ hy

theorem gives_integer (patience : Nat) (min max : Int64) :
    (integer patience min max : Draw σ Int64).Gives fun _ => True := by
  rw [integer]
  split
  · next hlt =>
    dsimp only
    split
    · exact (gives_raw .word).bind fun _ _ => gives_pure trivial
    · rw [Int64.lt_iff_toInt_lt] at hlt
      exact (gives_below patience .word (by omega)).bind fun _ _ => gives_pure trivial
  · exact gives_pure trivial

theorem gives_float_of_finite {min max : Float}
    (h : min < max → ((max - min) / greatestFraction).isFinite = true) :
    (float min max : Draw σ Float).Gives fun _ => True := by
  rw [float]
  split
  · next hlt =>
    dsimp only
    rw [if_pos (h hlt)]
    exact (gives_raw .word).bind fun _ _ => gives_pure trivial
  · exact gives_pure trivial

end Draw

/-! ## Samplers -/

/-- A range of floats is to have a length, or nothing between its ends. -/
def Sampler.Sound : Sampler → Prop
  | uniform min max _ => min < max → ((max - min) / Draw.greatestFraction).isFinite = true
  | _ => True

instance (s : Sampler) : Decidable s.Sound := by
  cases s <;> unfold Sampler.Sound <;> infer_instance

variable {σ : Type} [RandomSource σ]

/-- Whatever is drawn, what is written has no blank. -/
theorem gives_solid {s : Sampler} (h : s.Sound) (patience : Nat) :
    (s.sample patience : Draw σ String).Gives fun w => ∀ c ∈ w.toList, isBlank c = false := by
  cases s with
  | choice values =>
    refine (Draw.gives_choose_mem patience values).bind fun v _ => Draw.gives_pure ?_
    cases v with
    | none => exact not_isBlank_of_all (by decide)
    | some i => exact not_isBlank_of_mem_intText i
  | uniform min max decimals =>
    exact (Draw.gives_float_of_finite h).bind fun x _ =>
      Draw.gives_pure (not_isBlank_of_mem_fixed _ x)
  | scientific values =>
    refine (Draw.gives_choose_mem patience values).bind fun x _ => Draw.gives_pure ?_
    cases x with
    | none => exact not_isBlank_of_all (by decide)
    | some x => exact not_isBlank_of_mem_oneDigit x
  | intRange min max =>
    exact (Draw.gives_integer patience min max).bind fun i _ =>
      Draw.gives_pure (not_isBlank_of_mem_intText i)

/-- What a table of sound samplers gives, is one of these. -/
theorem sound_sampler {t : SamplingTable}
    (htable : ∀ (name : String) (s : Sampler), t.samplers[name]? = some s → s.Sound)
    (hint : t.intFallback.Sound) (hfloat : t.floatFallback.Sound) (placeholder : String) (param : Option String) :
    (t.sampler placeholder param).Sound := by
  have hget : ∀ name s, t.get? name = some s → s.Sound := fun name => htable _
  rw [SamplingTable.sampler]
  cases hparam : param.bind t.get? with
  | some s =>
    obtain ⟨name, -, hname⟩ := Option.bind_eq_some_iff.1 hparam
    exact hget name s hname
  | none =>
    cases hplace : t.get? placeholder with
    | some s => exact hget placeholder s hplace
    | none =>
      show (if placeholder.toUpper = "FLOAT" then t.floatFallback else t.intFallback).Sound
      split
      · exact hfloat
      · exact hint

/-- The samplers of the built-in table are sound. -/
theorem sound_standard (placeholder : String) (param : Option String) :
    (SamplingTable.standard.sampler placeholder param).Sound := by
  have htable : ∀ e ∈ SamplingTable.standard.samplers.toList, e.2.Sound := by decide
  exact sound_sampler
    (fun name s h => htable (name, s) (Std.ExtTreeMap.mem_toList_iff_getElem?_eq_some.2 h))
    (by decide) (by decide) placeholder param

end NeuralArch
