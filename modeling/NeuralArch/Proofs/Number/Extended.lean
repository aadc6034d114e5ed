import Mathlib.Order.WithBot
import NeuralArch.Proofs.Number.FloatValue

/-!
# Floats between two ends

The order of floats is that of the rational numbers with an element below them
all and one above, for the infinities.  Only what is no number has no place in it,
and is not comparable with anything.  So order is transitive for all floats, and
not just for those that are finite.

* `place?` — the place of a float among the extended numbers.
* `le_iff_extended`, `lt_iff_extended` — the order of floats is that of their places.
* `float_le_trans`, `float_lt_of_lt_of_le` — chains of comparisons.
-/

namespace NeuralArch.Number

open Float.Model (UnpackedFloat)
open Float.Model.UnpackedFloat (Sign)

/-- The rational numbers between a least and a greatest element. -/
abbrev Extended := WithBot (WithTop ℚ)

/-- A number among the extended ones. -/
def inner (p : ℚ) : Extended := ((p : WithTop ℚ) : Extended)

/-- The place of parts among the extended numbers; what is no number has none. -/
def extended? : UnpackedFloat → Option Extended
  | .notANumber => none
  | .infinity .negative => some ⊥
  | .infinity .positive => some ⊤
  | .zero _ => some (inner 0)
  | .finite s m e _ => some (inner (s.apply m * 2 ^ e))

theorem inner_lt_inner {p q : ℚ} : inner p < inner q ↔ p < q := by
  rw [inner, inner, WithBot.coe_lt_coe, WithTop.coe_lt_coe]

theorem compare_inner (p q : ℚ) : compare (inner p) (inner q) = compare p q := by
  rcases lt_trichotomy p q with h | rfl | h
  · rw [compare_lt_iff_lt.2 h, compare_lt_iff_lt.2 (inner_lt_inner.2 h)]
  · rw [compare_eq_iff_eq.2 rfl, compare_eq_iff_eq.2 rfl]
  · rw [compare_gt_iff_gt.2 h, compare_gt_iff_gt.2 (inner_lt_inner.2 h)]

theorem bot_lt_inner (p : ℚ) : (⊥ : Extended) < inner p := WithBot.bot_lt_coe _

theorem inner_lt_top (p : ℚ) : inner p < (⊤ : Extended) :=
  WithBot.coe_lt_coe.2 (WithTop.coe_lt_top p)

theorem bot_lt_top : (⊥ : Extended) < ⊤ := (bot_lt_inner 0).trans (inner_lt_top 0)

/-- What has a place is an infinity, or a number. -/
theorem extended?_eq_some {f : UnpackedFloat} {a : Extended} (h : extended? f = some a) :
    (f = .infinity .negative ∧ a = ⊥) ∨ (f = .infinity .positive ∧ a = ⊤) ∨
      ∃ p, rat? f = some p ∧ a = inner p := by
  cases f with
  | notANumber => cases h
  | infinity s =>
    cases s with
    | positive => exact .inr (.inl ⟨rfl, (Option.some.inj h).symm⟩)
    | negative => exact .inl ⟨rfl, (Option.some.inj h).symm⟩
  | zero s => exact .inr (.inr ⟨_, rfl, (Option.some.inj h).symm⟩)
  | finite s m e hm => exact .inr (.inr ⟨_, rfl, (Option.some.inj h).symm⟩)

/-- Parts are compared as their places are. -/
theorem compare_eq_extended {f g : UnpackedFloat} (hf : Canonical f) (hg : Canonical g)
    {a b : Extended} (ha : extended? f = some a) (hb : extended? g = some b) :
    f.compare g = some (compare a b) := by
  -- To an infinity all numbers compare as zero does.
  have hzero : rat? (.zero .positive) = some 0 := rfl
  rcases extended?_eq_some ha with ⟨rfl, rfl⟩ | ⟨rfl, rfl⟩ | ⟨p, hp, rfl⟩
  · rcases extended?_eq_some hb with ⟨rfl, rfl⟩ | ⟨rfl, rfl⟩ | ⟨q, hq, rfl⟩
    · rw [compare_eq_iff_eq.2 rfl]
      rfl
    · rw [compare_lt_iff_lt.2 bot_lt_top]
      rfl
    · rw [compare_lt_iff_lt.2 (bot_lt_inner q)]
      exact (compare_of_not_finite rfl hq hzero).1
  · rcases extended?_eq_some hb with ⟨rfl, rfl⟩ | ⟨rfl, rfl⟩ | ⟨q, hq, rfl⟩
    · rw [compare_gt_iff_gt.2 bot_lt_top]
      rfl
    · rw [compare_eq_iff_eq.2 rfl]
      rfl
    · rw [compare_gt_iff_gt.2 (inner_lt_top q)]
      exact (compare_of_not_finite rfl hq hzero).1
  · rcases extended?_eq_some hb with ⟨rfl, rfl⟩ | ⟨rfl, rfl⟩ | ⟨q, hq, rfl⟩
    · rw [compare_gt_iff_gt.2 (bot_lt_inner p)]
      exact (compare_of_not_finite rfl hp hzero).2
    · rw [compare_lt_iff_lt.2 (inner_lt_top p)]
      exact (compare_of_not_finite rfl hp hzero).2
    · rw [compare_eq_compare hf hg hp hq, compare_inner]

/-- What is comparable has a place. -/
theorem exists_extended_of_compare {f g : UnpackedFloat} {o : Ordering}
    (h : f.compare g = some o) :
    ∃ a b, extended? f = some a ∧ extended? g = some b := by
  have hplace : ∀ f : UnpackedFloat, f ≠ .notANumber → ∃ a, extended? f = some a := by
    intro f hf
    cases f with
    | notANumber => exact absurd rfl hf
    | infinity s => cases s <;> exact ⟨_, rfl⟩
    | zero s => exact ⟨_, rfl⟩
    | finite s m e hm => exact ⟨_, rfl⟩
  have hf : f ≠ .notANumber := by
    rintro rfl
    cases h
  have hg : g ≠ .notANumber := by
    rintro rfl
    cases f <;> cases h
  obtain ⟨a, ha⟩ := hplace f hf
  obtain ⟨b, hb⟩ := hplace g hg
  exact ⟨a, b, ha, hb⟩

/-! ## Floats -/

/-- The place of a float is that of its parts. -/
def place? (x : Float) : Option Extended := extended? x.toModel.unpack

theorem le_iff_extended {x y : Float} :
    x ≤ y ↔ ∃ a b, place? x = some a ∧ place? y = some b ∧ a ≤ b := by
  have hle (a b : Extended) : (compare a b).isLE = true ↔ a ≤ b := by
    rw [Ordering.isLE_iff_ne_gt]
    exact compare_le_iff_le
  rw [le_iff_compare]
  constructor
  · intro h
    obtain ⟨o, ho, -⟩ := (Option.any_eq_true _ _).1 h
    obtain ⟨a, b, ha, hb⟩ := exists_extended_of_compare ho
    rw [compare_eq_extended (canonical_toModel x) (canonical_toModel y) ha hb, Option.any_some,
      hle] at h
    exact ⟨a, b, ha, hb, h⟩
  · rintro ⟨a, b, ha, hb, hab⟩
    rwa [compare_eq_extended (canonical_toModel x) (canonical_toModel y) ha hb, Option.any_some,
      hle]

theorem lt_iff_extended {x y : Float} :
    x < y ↔ ∃ a b, place? x = some a ∧ place? y = some b ∧ a < b := by
  rw [lt_iff_compare]
  constructor
  · intro h
    obtain ⟨a, b, ha, hb⟩ := exists_extended_of_compare h
    rw [compare_eq_extended (canonical_toModel x) (canonical_toModel y) ha hb, Option.some.injEq,
      compare_lt_iff_lt] at h
    exact ⟨a, b, ha, hb, h⟩
  · rintro ⟨a, b, ha, hb, hlt⟩
    rw [compare_eq_extended (canonical_toModel x) (canonical_toModel y) ha hb,
      compare_lt_iff_lt.2 hlt]

/-- Nothing is asked of the floats: what is no number is in no relation. -/
theorem float_le_trans {x y z : Float} (hxy : x ≤ y) (hyz : y ≤ z) : x ≤ z := by
  obtain ⟨a, b, ha, hb, hab⟩ := le_iff_extended.1 hxy
  obtain ⟨b', c, hb', hc, hbc⟩ := le_iff_extended.1 hyz
  obtain rfl := Option.some.inj (hb.symm.trans hb')
  exact le_iff_extended.2 ⟨a, c, ha, hc, hab.trans hbc⟩

theorem float_lt_of_lt_of_le {x y z : Float} (hxy : x < y) (hyz : y ≤ z) : x < z := by
  obtain ⟨a, b, ha, hb, hab⟩ := lt_iff_extended.1 hxy
  obtain ⟨b', c, hb', hc, hbc⟩ := le_iff_extended.1 hyz
  obtain rfl := Option.some.inj (hb.symm.trans hb')
  exact lt_iff_extended.2 ⟨a, c, ha, hc, hab.trans_le hbc⟩

end NeuralArch.Number
