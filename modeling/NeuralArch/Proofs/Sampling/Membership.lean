import NeuralArch.Proofs.Number.Places
import NeuralArch.Proofs.Sampling.Lexeme

/-!
# What is sampled belongs to its sampler

An integer is written in full, so what is read back is the one that was drawn.
Floats are written with as many digits as the sampler says, and the number that
was drawn may have more.  Of a range, what is read back is rounded to the
places, and lies in the range if that changes neither end; of a list, it is the
listed float, if that has no more than the one digit that is written.

* `Sampler.Proper` — the samplers that have something to draw from.
* `Sampler.Declares` — the texts of the values that a sampler declares.
* `sample_declared` — nothing else is written.
* `sample_rounded` — digits that are not written are lost.
-/

namespace NeuralArch

open Number

/-! ## Integers -/

theorem Number.readInt64?_intText (i : Int64) : readInt64? (Sampler.intText i) = some i := by
  have hread : readInt? (Sampler.intText i).toList = some i.toInt := by
    rw [toList_intText, readInt?_text (wellFormed_ofInt _) rfl rfl, Numeral.toInt_ofInt]
  rw [readInt64?, hread, Option.bind_some, toInt64?, if_pos ⟨i.le_toInt, i.toInt_lt⟩,
    Int64.ofInt_toInt]

namespace Sampler

/-! ## Samplers -/

/-- Whether a sampler has something to draw from: a list that is not empty, or ends in order. -/
def Proper : Sampler → Prop
  | choice values => values ≠ []
  | uniform min max _ => min ≤ max
  | scientific values => values ≠ []
  | intRange min max => min ≤ max

/-- Whether a text is that of a value that a sampler declares.  An integer is read back as one of
the list or of the range.  A float of the range is read back rounded to the places, so beyond no
end that is rounded to itself; a float of the list, as itself if it has one digit. -/
def Declares : Sampler → String → Prop
  | choice values, text => ∃ i ∈ values, readInt64? text = some i
  | uniform min max decimals, text =>
    let places := Nat.max decimals 1
    ∃ x y, min ≤ x ∧ x ≤ max ∧ readFloat? text = some y ∧ RoundsTo places x y ∧
      (RoundsTo places min min → min ≤ y) ∧ (RoundsTo places max max → y ≤ max)
  | scientific values, text =>
    ∃ x ∈ values, text = oneDigit x ∧ (HasOneDigit x → readFloat? text = some x)
  | intRange min max, text => ∃ i, readInt64? text = some i ∧ min ≤ i ∧ i ≤ max

theorem Writes.declares {sampler : Sampler} (hfinite : sampler.Finite) (hproper : sampler.Proper)
    {text : String} (h : sampler.Writes text) : sampler.Declares text := by
  cases h with
  | choice hmem => exact ⟨_, hmem, readInt64?_intText _⟩
  | noChoice => exact absurd rfl hproper
  | uniform hmin hmax hx hlow hhigh =>
    rw [sup_eq_right.2 ((le_iff_toRat hmin hmax).1 hproper)] at hhigh
    have hlow := (le_iff_toRat hmin hx).2 hlow
    have hhigh := (le_iff_toRat hx hmax).2 hhigh
    obtain ⟨y, hread, hround⟩ := readFloat?_fixed (exists_toRat?_iff.1 ⟨_, hx⟩)
    exact ⟨_, y, hlow, hhigh, hread, hround, fun hmin' => hmin'.mono hround hlow,
      fun hmax' => hround.mono hmax' hhigh⟩
  | scientific hmem => exact ⟨_, hmem, rfl, (readFloat?_oneDigit_iff (hfinite _ hmem)).2⟩
  | noScientific => exact absurd rfl hproper
  | intRange hlow hhigh => exact ⟨_, readInt64?_intText _, hlow, hhigh hproper⟩

variable {σ : Type} [RandomSource σ]

/-- Whatever the source is, a sampler of finite parameters that has something to draw from writes
a value that it declares. -/
theorem sample_declared {sampler : Sampler} (hfinite : sampler.Finite) (hproper : sampler.Proper)
    {patience : Nat} {source rest : σ} {text : String}
    (h : sampler.sample patience source = .done (text, rest)) : sampler.Declares text :=
  (writes_of_sample hfinite h).declares hfinite hproper

/-- Two places change neither end of this range. -/
theorem sample_declared_range : (uniform 0.5 1.5 2).Finite ∧ (uniform 0.5 1.5 2).Proper ∧
    (∃ rest, (uniform 0.5 1.5 2).sample 1 (WordSource.ofWords [0x8000000000000000]) =
      .done ("1.00", rest)) ∧ (uniform 0.5 1.5 2).Declares "1.00" ∧
    ∃ y, readFloat? "1.00" = some y ∧ 0.5 ≤ y ∧ y ≤ 1.5 := by
  have hmin : (0.5 : Float).isFinite = true := rfl
  have hmax : (1.5 : Float).isFinite = true := rfl
  have hproper : (0.5 : Float) ≤ 1.5 := rfl
  obtain ⟨rest, hdone⟩ : ∃ rest, (uniform 0.5 1.5 2).sample 1
      (WordSource.ofWords [0x8000000000000000]) = .done ("1.00", rest) :=
    Draw.exists_rest (by decide +kernel)
  have hfinite : (uniform 0.5 1.5 2).Finite := ⟨hmin, hmax⟩
  have hdeclared := sample_declared hfinite hproper hdone
  obtain ⟨x, y, -, -, hread, -, hlow, hhigh⟩ := id hdeclared
  exact ⟨hfinite, hproper, ⟨rest, hdone⟩, hdeclared, y, hread,
    hlow (roundsTo_of_readFloat? hmin (by decide +kernel)),
    hhigh (roundsTo_of_readFloat? hmax (by decide +kernel))⟩

/-- Digits that are not written are lost: with one place a quarter is less than the range, and
with one digit two and a half thousandths are not what is listed. -/
theorem sample_rounded :
    ((uniform 0.25 0.25 1).Finite ∧ (uniform 0.25 0.25 1).Proper ∧
      (∃ rest, (uniform 0.25 0.25 1).sample 1 (WordSource.ofWords []) = .done ("0.2", rest)) ∧
      ∃ y, readFloat? "0.2" = some y ∧ ¬ (0.25 ≤ y ∧ y ≤ 0.25)) ∧
    ((scientific [0.0025]).Finite ∧ (scientific [0.0025]).Proper ∧
      (∃ rest, (scientific [0.0025]).sample 1 (WordSource.ofWords [0]) = .done ("3e-3", rest)) ∧
      ∃ y, readFloat? "3e-3" = some y ∧ y ∉ [0.0025]) := by
  constructor
  · have hends : (0.25 : Float).isFinite = true := by decide +kernel
    have hordered : (0.25 : Float) ≤ 0.25 := by decide +kernel
    have hread : readFloat? "0.2" = some 0.2 := by decide +kernel
    exact ⟨⟨hends, hends⟩, hordered, Draw.exists_rest (by decide +kernel), 0.2, hread,
      by decide +kernel⟩
  · have hlisted : (0.0025 : Float).isFinite = true := by decide +kernel
    have hread : readFloat? "3e-3" = some 0.003 := by decide +kernel
    have hother : (0.003 : Float) ≠ 0.0025 := by decide +kernel
    exact ⟨List.forall_mem_singleton.2 hlisted, List.cons_ne_nil _ _,
      Draw.exists_rest (by decide +kernel), 0.003, hread, by rwa [List.mem_singleton]⟩

end Sampler

end NeuralArch
