import NeuralArch.Number.Binary

/-!
# The order of floats

Floats are compared by their parts: sign, exponent, mantissa.

* `le_iff_compare`, `lt_iff_compare` — the two relations by one comparison.
* `le_negZero_iff`, `negZero_lt_iff` — the sign of a zero makes no difference.
* `not_infinity_lt`, `not_le_negInfinity` — nothing lies beyond the infinities.
-/

namespace NeuralArch.Number

open Float.Model (UnpackedFloat)
open Float.Model.UnpackedFloat (Sign)

theorem le_iff_compare {x y : Float} :
    x ≤ y ↔ (x.toModel.unpack.compare y.toModel.unpack).any (·.isLE) = true := by
  show decide _ = true ↔ _
  exact decide_eq_true_iff

theorem lt_iff_compare {x y : Float} :
    x < y ↔ x.toModel.unpack.compare y.toModel.unpack = some .lt := by
  show decide _ = true ↔ _
  rw [decide_eq_true_iff]
  show (x.toModel.unpack.compare y.toModel.unpack == some .lt) = true ↔ _
  rw [beq_iff_eq]

theorem compare_zero_right (f : UnpackedFloat) (s t : Sign) :
    f.compare (.zero s) = f.compare (.zero t) := by
  match f with
  | .notANumber => rfl
  | .infinity .positive => rfl
  | .infinity .negative => rfl
  | .zero _ => rfl
  | .finite .positive .. => rfl
  | .finite .negative .. => rfl

theorem compare_zero_left (f : UnpackedFloat) (s t : Sign) :
    UnpackedFloat.compare (.zero s) f = UnpackedFloat.compare (.zero t) f := by
  match f with
  | .notANumber => rfl
  | .infinity .positive => rfl
  | .infinity .negative => rfl
  | .zero _ => rfl
  | .finite .positive .. => rfl
  | .finite .negative .. => rfl

/-- The sign of a zero makes no difference to the order. -/
theorem le_negZero_iff (x : Float) : x ≤ -0 ↔ x ≤ 0 := by
  rw [le_iff_compare, le_iff_compare]
  show (x.toModel.unpack.compare (.zero .negative)).any (·.isLE) = true ↔
    (x.toModel.unpack.compare (.zero .positive)).any (·.isLE) = true
  rw [compare_zero_right _ .negative .positive]

theorem negZero_lt_iff (x : Float) : -0 < x ↔ 0 < x := by
  rw [lt_iff_compare, lt_iff_compare]
  show UnpackedFloat.compare (.zero .negative) x.toModel.unpack = some .lt ↔
    UnpackedFloat.compare (.zero .positive) x.toModel.unpack = some .lt
  rw [compare_zero_left _ .negative .positive]

theorem not_infinity_lt (x : Float) : ¬ infinity < x := by
  rw [lt_iff_compare]
  show ¬ UnpackedFloat.compare (.infinity .positive) x.toModel.unpack = some .lt
  match x.toModel.unpack with
  | .notANumber => exact nofun
  | .infinity .positive => exact nofun
  | .infinity .negative => exact nofun
  | .zero _ => exact nofun
  | .finite .. => exact nofun

theorem not_le_negInfinity {x : Float} (h : 0 ≤ x) : ¬ x ≤ -infinity := by
  rw [le_iff_compare] at h ⊢
  change (UnpackedFloat.compare (.zero .positive) x.toModel.unpack).any (·.isLE) = true at h
  show ¬ (UnpackedFloat.compare x.toModel.unpack (.infinity .negative)).any (·.isLE) = true
  match hx : x.toModel.unpack with
  | .notANumber => exact nofun
  | .infinity .positive => exact nofun
  | .infinity .negative =>
    rw [hx] at h
    exact absurd h nofun
  | .zero _ => exact nofun
  | .finite .. => exact nofun

end NeuralArch.Number
