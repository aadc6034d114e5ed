import NeuralArch.Proofs.Number.Fixed
import NeuralArch.Proofs.Number.Written

/-!
# Reading back what is written with places

A float that is written with some places is read back as the float of the number
that is rounded to the places.  Both roundings keep the order, so an end of a
range that they do not change is not passed by anything in the range.  No float
is too large to be read back: the large ones are integers, which no places
change.

* `placed`, `RoundsTo` — a number, and a float, rounded to places.
* `RoundsTo.mono` — the order is kept.
* `readFloat?_fixed` — what is read back is the rounded float.
-/

namespace NeuralArch.Number

/-- A number, rounded to some places behind the point. -/
def placed (places : ℕ) (p : ℚ) : ℚ := roundEven (p * 10 ^ places) * 10 ^ (-(places : ℤ))

section Places

variable (places : ℕ)

theorem placed_mono {p q : ℚ} (h : p ≤ q) : placed places p ≤ placed places q := by
  have hround : roundEven (p * 10 ^ places) ≤ roundEven (q * 10 ^ places) :=
    roundEven_mono (mul_le_mul_of_nonneg_right h (by positivity))
  exact mul_le_mul_of_nonneg_right (by exact_mod_cast hround) (by positivity)

theorem placed_neg (p : ℚ) : placed places (-p) = -placed places p := by
  rw [placed, placed, neg_mul, roundEven_neg, Int.cast_neg, neg_mul]

/-- Integers have no places. -/
theorem placed_natCast (n : ℕ) : placed places n = n := by
  have hint : (n : ℚ) * 10 ^ places = ((n * 10 ^ places : ℤ) : ℚ) := by push_cast; rfl
  rw [placed, hint, roundEven_intCast, ← hint, zpow_neg, zpow_natCast,
    mul_inv_cancel_right₀ (by positivity)]

theorem placed_nonneg {p : ℚ} (h : 0 ≤ p) : 0 ≤ placed places p := by
  have hzero := placed_natCast places 0
  rw [Nat.cast_zero] at hzero
  exact hzero ▸ placed_mono places h

/-- Rounding to places makes no float too large. -/
theorem toNearest_placed_lt {x : Float} {negative : Bool} {m : Magnitude}
    (hx : FloatClass.of x = .finite negative m) :
    toNearest (placed places m.toRat) < overflow := by
  have hmantissa : m.mantissa < 2 ^ 53 := by
    rcases Nat.eq_zero_or_pos m.mantissa with hzero | hm
    · rw [hzero]
      norm_num
    · exact (bounds_of_canonical hm (canonical_parts hx false)).1
  by_cases hexp : 0 ≤ m.exponent
  · have hinteger : m.toRat = (m.mantissa * 2 ^ m.exponent.toNat : ℕ) := by
      rw [Magnitude.toRat, Nat.cast_mul, Nat.cast_pow, ← zpow_natCast, Int.toNat_of_nonneg hexp]
      rfl
    rw [hinteger, placed_natCast, ← hinteger, Magnitude.toRat,
      toNearest_of_dyadic hmantissa (by unfold leastExponent; omega)]
    exact toRat_lt_overflow hx
  · -- Below the integers all numbers are small.
    have hsmall : m.toRat ≤ (2 ^ 53 - 1 : ℕ) := by
      have hone : (2 : ℚ) ^ m.exponent ≤ 1 := zpow_le_one_of_nonpos₀ (by norm_num) (by omega)
      refine (mul_le_of_le_one_right (Nat.cast_nonneg _) hone).trans ?_
      exact_mod_cast (by omega : m.mantissa ≤ 2 ^ 53 - 1)
    have hplaced := placed_mono places hsmall
    rw [placed_natCast] at hplaced
    have hround := toNearest_mono (placed_nonneg places m.toRat_nonneg) hplaced
    rw [← roundRat_of_nonneg (Nat.cast_nonneg _), roundRat_natCast (by norm_num)] at hround
    exact lt_of_le_of_lt hround (lt_of_abs_lt (natCast_lt_overflow (by norm_num)))

/-- The numeral that a finite float is written as. -/
theorem exists_fixed {x : Float} {negative : Bool} {m : Magnitude}
    (hx : FloatClass.of x = .finite negative m) :
    ∃ n : Numeral, n.WellFormed ∧ n.negative = negative ∧
      fixed places x = String.ofList (n.text false) ∧ n.toRat = placed places m.toRat := by
  refine ⟨_, wellFormed_plain negative false
    (roundDiv (m.inUnits (-(places : ℤ))).1 (m.inUnits (-(places : ℤ))).2) (-(places : ℤ)),
    ?_, ?_, ?_⟩
  · unfold plain
    split <;> rfl
  · rw [fixed, hx]
  · rw [toRat_plain, placed, ← inUnits_neg, ← roundDiv_eq_roundEven (m.inUnits_pos _),
      Int.cast_natCast]

/-- A float rounded to some places, which need not be a float, and then to the nearest float. -/
def RoundsTo (x y : Float) : Prop :=
  ∃ p, toRat? x = some p ∧ toRat? y = some (roundRat (placed places p))

variable {places} {x y a b : Float}

/-- Of two floats, the greater one is rounded to the greater one. -/
theorem RoundsTo.mono (hx : RoundsTo places x a) (hy : RoundsTo places y b) (h : x ≤ y) :
    a ≤ b := by
  obtain ⟨p, hp, ha⟩ := hx
  obtain ⟨q, hq, hb⟩ := hy
  have hpq := (le_iff_toRat hp hq).1 h
  exact (le_iff_toRat ha hb).2 (roundRat_mono (placed_mono places hpq))

/-- What is read back is the rounded float. -/
theorem readFloat?_fixed (hx : x.isFinite = true) :
    ∃ y, readFloat? (fixed places x) = some y ∧ RoundsTo places x y := by
  obtain ⟨negative, m, hclass⟩ := isFinite_iff_class.1 hx
  obtain ⟨n, hn, hsign, htext, hvalue⟩ := exists_fixed places hclass
  refine ⟨n.toFloat, by rw [htext, readFloat?_text hn], _, toRat?_of_class hclass, ?_⟩
  have hplaced := placed_nonneg places m.toRat_nonneg
  have hrounds := rounds_nearest_signed n.negative n.significand n.scale
  rw [← Numeral.toRat, ← Numeral.toFloat, hsign, hvalue] at hrounds
  have hsigned : roundRat (placed places (if negative then -m.toRat else m.toRat)) =
      if negative then -toNearest (placed places m.toRat) else toNearest (placed places m.toRat) := by
    cases negative with
    | false => exact roundRat_of_nonneg hplaced
    | true =>
      rw [if_pos rfl, if_pos rfl, placed_neg, roundRat_neg, roundRat_of_nonneg hplaced]
  rw [hsigned]
  refine hrounds.toRat?_eq ?_
  rw [abs_signed, abs_of_nonneg (toNearest_nonneg hplaced)]
  exact toNearest_placed_lt places hclass

/-- So reading back tells what a float is rounded to. -/
theorem roundsTo_of_readFloat? (hx : x.isFinite = true)
    (hread : readFloat? (fixed places x) = some y) : RoundsTo places x y := by
  obtain ⟨y', hy', hround⟩ := @readFloat?_fixed places x hx
  obtain rfl := Option.some.inj (hy'.symm.trans hread)
  exact hround

end Places

end NeuralArch.Number
