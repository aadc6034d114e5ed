import Mathlib.Algebra.Order.Floor.Ring
import Mathlib.Data.Int.Log
import Mathlib.Data.Rat.Floor
import Mathlib.Tactic.FieldSimp
import Mathlib.Tactic.Linarith
import Mathlib.Tactic.Positivity
import NeuralArch.Number.Binary

/-!
# Rounding to nearest, exactly

What rounding to the nearest float does to a number, in rational arithmetic.
The floats near a number are the multiples of a power of two that depends on the
size of the number; a half goes to the even multiple.  Exponents are not bounded
from above here: what is too large for a float is a matter of packing.

* `roundEven` — the nearest integer; `roundDiv` computes it.
* `toNearest` — the nearest multiple of the unit at a number.
* `roundEven_mono`, `toNearest_mono` — rounding keeps the order.
* `toNearest_of_dyadic` — a number with few enough binary digits is not changed.
* `roundEven_near`, `abs_sub_roundEven_le` — how near the nearest integer is.
* `toNearest_eq` — what is within half a unit of a multiple is rounded to it.
-/

namespace NeuralArch.Number

/-! ## The nearest integer -/

/-- The nearest integer; a half goes to the even one. -/
def roundEven (x : ℚ) : ℤ :=
  if Int.fract x < 1 / 2 then ⌊x⌋
  else if 1 / 2 < Int.fract x then ⌊x⌋ + 1
  else if ⌊x⌋ % 2 = 0 then ⌊x⌋
  else ⌊x⌋ + 1

theorem floor_le_roundEven (x : ℚ) : ⌊x⌋ ≤ roundEven x := by
  unfold roundEven
  split
  · omega
  · split
    · omega
    · split <;> omega

theorem roundEven_le_floor_add_one (x : ℚ) : roundEven x ≤ ⌊x⌋ + 1 := by
  unfold roundEven
  split
  · omega
  · split
    · omega
    · split <;> omega

@[simp] theorem roundEven_intCast (n : ℤ) : roundEven n = n := by
  rw [roundEven, Int.fract_intCast, if_pos (by norm_num), Int.floor_intCast]

@[simp] theorem roundEven_zero : roundEven 0 = 0 := roundEven_intCast 0

/-- Rounding keeps the order. -/
theorem roundEven_mono {x y : ℚ} (h : x ≤ y) : roundEven x ≤ roundEven y := by
  have hfloor : ⌊x⌋ ≤ ⌊y⌋ := Int.floor_le_floor h
  rcases hfloor.lt_or_eq with hlt | heq
  · have hx := roundEven_le_floor_add_one x
    have hy := floor_le_roundEven y
    omega
  · have hfract : Int.fract x ≤ Int.fract y := by
      rw [Int.fract, Int.fract, heq]
      linarith
    unfold roundEven
    rw [heq]
    by_cases hx : Int.fract x < 1 / 2
    · rw [if_pos hx]
      exact floor_le_roundEven y
    · rw [if_neg hx, if_neg (by linarith : ¬ Int.fract y < 1 / 2)]
      by_cases hx' : 1 / 2 < Int.fract x
      · rw [if_pos hx', if_pos (by linarith : 1 / 2 < Int.fract y)]
      · rw [if_neg hx']
        by_cases hy : 1 / 2 < Int.fract y
        · rw [if_pos hy]
          split <;> omega
        · rw [if_neg hy]

theorem le_roundEven {n : ℤ} {x : ℚ} (h : (n : ℚ) ≤ x) : n ≤ roundEven x := by
  rw [← roundEven_intCast n]
  exact roundEven_mono h

theorem roundEven_le {n : ℤ} {x : ℚ} (h : x ≤ n) : roundEven x ≤ n := by
  rw [← roundEven_intCast n]
  exact roundEven_mono h

theorem roundEven_nonneg {x : ℚ} (h : 0 ≤ x) : 0 ≤ roundEven x :=
  le_roundEven (by exact_mod_cast h)

theorem floor_natCast_div (num den : ℕ) : ⌊(num / den : ℚ)⌋ = (num / den : ℕ) := by
  rw [Rat.floor_natCast_div_natCast]
  push_cast
  rfl

theorem fract_natCast_div (num : ℕ) {den : ℕ} (h : 0 < den) :
    Int.fract (num / den : ℚ) = (num % den : ℕ) / den := by
  have hden : (0 : ℚ) < den := by exact_mod_cast h
  rw [Int.fract, floor_natCast_div, eq_div_iff hden.ne', sub_mul, div_mul_cancel₀ _ hden.ne']
  have hmod := Nat.div_add_mod num den
  have : (num : ℚ) = (num / den : ℕ) * den + (num % den : ℕ) := by
    rw [mul_comm]
    exact_mod_cast hmod.symm
  rw [Int.cast_natCast]
  linarith

theorem fract_natCast_div_lt_half (num : ℕ) {den : ℕ} (h : 0 < den) :
    Int.fract (num / den : ℚ) < 1 / 2 ↔ 2 * (num % den) < den := by
  have hden : (0 : ℚ) < den := by exact_mod_cast h
  rw [fract_natCast_div num h, div_lt_div_iff₀ hden (by norm_num), one_mul, mul_comm]
  exact_mod_cast Iff.rfl

theorem half_lt_fract_natCast_div (num : ℕ) {den : ℕ} (h : 0 < den) :
    1 / 2 < Int.fract (num / den : ℚ) ↔ den < 2 * (num % den) := by
  have hden : (0 : ℚ) < den := by exact_mod_cast h
  rw [fract_natCast_div num h, div_lt_div_iff₀ (by norm_num) hden, one_mul, mul_comm (_ : ℚ) 2]
  exact_mod_cast Iff.rfl

/-- A quotient of naturals is rounded by its remainder. -/
theorem roundDiv_eq_roundEven {num den : ℕ} (h : 0 < den) :
    (roundDiv num den : ℤ) = roundEven (num / den) := by
  unfold roundDiv roundEven
  dsimp only
  simp only [fract_natCast_div_lt_half num h, half_lt_fract_natCast_div num h, floor_natCast_div]
  split
  · rfl
  · split
    · push_cast
      rfl
    · split
      · rw [if_pos (by omega)]
      · rw [if_neg (by omega)]
        push_cast
        rfl

/-! ## The nearest float -/

/-- The exponent of the unit at a number: 53 digits from its first one, if that is not below the
least exponent. -/
def unitExponent (x : ℚ) : ℤ := max (Int.log 2 x - 52) leastExponent

/-- The distance of the floats next to a number. -/
def unit (x : ℚ) : ℚ := 2 ^ unitExponent x

theorem unit_pos (x : ℚ) : 0 < unit x := zpow_pos (by norm_num) _

/-- The nearest float to a number that is not negative. -/
def toNearest (x : ℚ) : ℚ := roundEven (x / unit x) * unit x

theorem toNearest_nonneg {x : ℚ} (h : 0 ≤ x) : 0 ≤ toNearest x := by
  have hunit := unit_pos x
  have hround : (0 : ℚ) ≤ roundEven (x / unit x) :=
    by exact_mod_cast roundEven_nonneg (div_nonneg h hunit.le)
  exact mul_nonneg hround hunit.le

@[simp] theorem toNearest_zero : toNearest 0 = 0 := by
  rw [toNearest, zero_div, roundEven_zero, Int.cast_zero, zero_mul]

/-- A number has at most 53 digits before its unit. -/
theorem div_unit_lt (x : ℚ) : x / unit x < 2 ^ 53 := by
  rw [div_lt_iff₀ (unit_pos x), unit, ← zpow_natCast, ← zpow_add₀ (by norm_num)]
  have hlog : x < 2 ^ (Int.log 2 x + 1) := by
    exact_mod_cast Int.lt_zpow_succ_log_self (by norm_num : 1 < 2) x
  refine lt_of_lt_of_le hlog (zpow_le_zpow_right₀ (by norm_num) ?_)
  have : Int.log 2 x - 52 ≤ unitExponent x := le_max_left _ _
  push_cast
  omega

/-- It has all 53 digits, if its unit is not the least one. -/
theorem le_div_unit {x : ℚ} (h : 0 < x) (hunit : leastExponent < unitExponent x) :
    2 ^ 52 ≤ x / unit x := by
  rw [le_div_iff₀ (unit_pos x), unit, ← zpow_natCast, ← zpow_add₀ (by norm_num)]
  have hlog : (2 : ℚ) ^ Int.log 2 x ≤ x := by
    exact_mod_cast Int.zpow_log_le_self (by norm_num : 1 < 2) h
  refine le_trans (zpow_le_zpow_right₀ (by norm_num) ?_) hlog
  unfold unitExponent at hunit ⊢
  push_cast
  omega

theorem unitExponent_mono {x y : ℚ} (hx : 0 < x) (h : x ≤ y) :
    unitExponent x ≤ unitExponent y := by
  have hlog : Int.log 2 x ≤ Int.log 2 y := Int.log_mono_right hx h
  unfold unitExponent
  omega

/-- Rounding keeps the order.  Where the unit changes, a power of two lies between, and no
rounding crosses that. -/
theorem toNearest_mono {x y : ℚ} (hx : 0 ≤ x) (h : x ≤ y) : toNearest x ≤ toNearest y := by
  rcases hx.eq_or_lt with rfl | hx
  · rw [toNearest_zero]
    exact toNearest_nonneg h
  have hy : 0 < y := lt_of_lt_of_le hx h
  rcases (unitExponent_mono hx h).eq_or_lt with heq | hlt
  · have hunit : unit x = unit y := by rw [unit, unit, heq]
    rw [toNearest, toNearest, hunit]
    have hround : roundEven (x / unit y) ≤ roundEven (y / unit y) :=
      roundEven_mono (div_le_div_of_nonneg_right h (unit_pos y).le)
    exact mul_le_mul_of_nonneg_right (by exact_mod_cast hround) (unit_pos y).le
  · have hx53 : roundEven (x / unit x) ≤ 2 ^ 53 :=
      roundEven_le (by push_cast; exact (div_unit_lt x).le)
    have hy52 : 2 ^ 52 ≤ roundEven (y / unit y) :=
      le_roundEven (by
        push_cast
        exact le_div_unit hy (lt_of_le_of_lt (le_max_right _ _) hlt))
    calc toNearest x ≤ 2 ^ 53 * unit x :=
          mul_le_mul_of_nonneg_right (by exact_mod_cast hx53) (unit_pos x).le
      _ ≤ 2 ^ 52 * unit y := by
          rw [unit, unit, ← zpow_natCast, ← zpow_natCast, ← zpow_add₀ (by norm_num),
            ← zpow_add₀ (by norm_num)]
          refine zpow_le_zpow_right₀ (by norm_num) ?_
          push_cast
          omega
      _ ≤ toNearest y :=
          mul_le_mul_of_nonneg_right (by exact_mod_cast hy52) (unit_pos y).le

/-- A number with at most 53 binary digits above the least exponent is not changed. -/
theorem toNearest_of_dyadic {m : ℕ} {e : ℤ} (hm : m < 2 ^ 53) (he : leastExponent ≤ e) :
    toNearest (m * 2 ^ e) = m * 2 ^ e := by
  rcases Nat.eq_zero_or_pos m with rfl | hpos
  · rw [Nat.cast_zero, zero_mul, toNearest_zero]
  have hmpos : (0 : ℚ) < m := by exact_mod_cast hpos
  set x : ℚ := m * 2 ^ e with hx
  have hepos : (0 : ℚ) < 2 ^ e := zpow_pos (by norm_num) e
  have hxpos : 0 < x := mul_pos hmpos hepos
  -- The unit divides the number, since it is not above the last digit.
  have hle : unitExponent x ≤ e := by
    have hlt : x < 2 ^ (53 + e) := by
      rw [hx, zpow_add₀ (by norm_num)]
      have : (m : ℚ) < 2 ^ (53 : ℤ) := by
        rw [show ((53 : ℤ)) = ((53 : ℕ) : ℤ) from rfl, zpow_natCast]
        exact_mod_cast hm
      exact mul_lt_mul_of_pos_right this hepos
    have hlog : (2 : ℚ) ^ Int.log 2 x ≤ x := by
      exact_mod_cast Int.zpow_log_le_self (by norm_num : 1 < 2) hxpos
    have : Int.log 2 x < 53 + e :=
      (zpow_lt_zpow_iff_right₀ (by norm_num : (1 : ℚ) < 2)).1 (lt_of_le_of_lt hlog hlt)
    unfold unitExponent
    omega
  have hdiv : x / unit x = ((m * 2 ^ (e - unitExponent x).toNat : ℕ) : ℤ) := by
    have hexp : (2 : ℚ) ^ (e - unitExponent x).toNat * unit x = 2 ^ e := by
      rw [unit, ← zpow_natCast, ← zpow_add₀ (by norm_num), Int.toNat_of_nonneg (by omega),
        sub_add_cancel]
    rw [div_eq_iff (unit_pos x).ne']
    push_cast
    rw [mul_assoc, hexp]
  rw [toNearest, hdiv, roundEven_intCast, ← hdiv, div_mul_cancel₀ _ (unit_pos x).ne']

/-! ## What is near -/

/-- Distances from multiples of a unit, in units. -/
theorem abs_sub_mul {u : ℚ} (hu : 0 < u) (x n : ℚ) : |x - n * u| = |x / u - n| * u := by
  rw [← abs_of_pos hu, ← abs_mul, abs_of_pos hu, sub_mul, div_mul_cancel₀ _ hu.ne']

/-- Rounding to an integer is within a half, and a half away only from an even one. -/
theorem roundEven_near (x : ℚ) :
    |x - roundEven x| ≤ 1 / 2 ∧ (roundEven x % 2 = 1 → |x - roundEven x| < 1 / 2) := by
  have hfract : x = ⌊x⌋ + Int.fract x := (Int.floor_add_fract x).symm
  have h0 := Int.fract_nonneg x
  have h1 := Int.fract_lt_one x
  have hlow : |x - ⌊x⌋| = Int.fract x := by
    rw [Int.self_sub_floor, abs_of_nonneg h0]
  have hhigh : |x - (⌊x⌋ + 1 : ℤ)| = 1 - Int.fract x := by
    rw [abs_of_nonpos]
    · push_cast
      linarith
    · push_cast
      linarith
  unfold roundEven
  split
  · rw [hlow]
    exact ⟨by linarith, fun _ => by assumption⟩
  · split
    · rw [hhigh]
      exact ⟨by linarith, fun _ => by linarith⟩
    · split
      · rw [hlow]
        exact ⟨by linarith, fun hodd => absurd hodd (by omega)⟩
      · rw [hhigh]
        exact ⟨by linarith, fun hodd => absurd hodd (by omega)⟩

/-- No integer is nearer. -/
theorem abs_sub_roundEven_le (x : ℚ) (n : ℤ) : |x - roundEven x| ≤ |x - n| := by
  by_cases hn : roundEven x = n
  · rw [hn]
  have hone : (1 : ℚ) ≤ |(roundEven x : ℚ) - n| := by
    have : 1 ≤ |roundEven x - n| := Int.one_le_abs (sub_ne_zero.2 hn)
    exact_mod_cast this
  have hhalf := (roundEven_near x).1
  have := abs_sub_le (roundEven x : ℚ) x n
  rw [abs_sub_comm _ x] at this
  linarith

/-- The integer a number is next to, an even one also if another is as near. -/
theorem roundEven_eq {x : ℚ} {n : ℤ} (hnear : |x - n| ≤ 1 / 2)
    (htie : n % 2 = 1 → |x - n| < 1 / 2) : roundEven x = n := by
  obtain ⟨hlow, hhigh⟩ := abs_le.1 hnear
  by_cases hle : (n : ℚ) ≤ x
  · have hfloor : ⌊x⌋ = n := Int.floor_eq_iff.2 ⟨hle, by linarith⟩
    have hfract : Int.fract x = x - n := by rw [Int.fract, hfloor]
    rw [roundEven, hfract, hfloor]
    by_cases hlt : x - n < 1 / 2
    · rw [if_pos hlt]
    · have hodd : ¬ n % 2 = 1 := fun h => hlt (abs_lt.1 (htie h)).2
      rw [if_neg hlt, if_neg (by linarith), if_pos (by omega)]
  · have hfloor : ⌊x⌋ = n - 1 :=
      Int.floor_eq_iff.2 ⟨by push_cast; linarith, by push_cast; linarith⟩
    have hfract : Int.fract x = x - n + 1 := by
      rw [Int.fract, hfloor]
      push_cast
      ring
    rw [roundEven, hfract, hfloor, if_neg (by linarith)]
    by_cases hlt : 1 / 2 < x - n + 1
    · rw [if_pos hlt, sub_add_cancel]
    · have hodd : ¬ n % 2 = 1 := fun h => by
        have := (abs_lt.1 (htie h)).1
        linarith
      rw [if_neg hlt, if_neg (by omega), sub_add_cancel]

theorem roundEven_neg (x : ℚ) : roundEven (-x) = -roundEven x := by
  obtain ⟨hnear, htie⟩ := roundEven_near x
  have hdist : |-x - (-roundEven x : ℤ)| = |x - roundEven x| := by
    rw [← abs_neg]
    congr 1
    push_cast
    ring
  refine roundEven_eq (by rwa [hdist]) fun hodd => ?_
  rw [hdist]
  exact htie (by omega)

/-- The unit at a number of 53 digits, or of fewer if it is the least one. -/
theorem unitExponent_eq {x : ℚ} {e : ℤ} (hx : 0 < x) (hlow : e = leastExponent ∨ 2 ^ (e + 52) ≤ x)
    (hhigh : x < 2 ^ (e + 53)) (he : leastExponent ≤ e) : unitExponent x = e := by
  have hlt : Int.log 2 x < e + 53 :=
    (Int.lt_zpow_iff_log_lt (by norm_num) hx).1 (by exact_mod_cast hhigh)
  unfold unitExponent
  rcases hlow with rfl | hle
  · omega
  · have hge : e + 52 ≤ Int.log 2 x :=
      (Int.zpow_le_iff_le_log (by norm_num) hx).1 (by exact_mod_cast hle)
    omega

/-- Within half a unit of a multiple of the unit, a number is rounded to the multiple. -/
theorem toNearest_eq {x : ℚ} {n : ℤ} {e : ℤ} (hunit : unitExponent x = e)
    (hnear : |x - n * 2 ^ e| ≤ 2 ^ e / 2) (htie : n % 2 = 1 → |x - n * 2 ^ e| < 2 ^ e / 2) :
    toNearest x = n * 2 ^ e := by
  have hpos : (0 : ℚ) < 2 ^ e := zpow_pos (by norm_num) e
  rw [abs_sub_mul hpos] at hnear htie
  rw [toNearest, unit, hunit, roundEven_eq]
  · refine le_of_mul_le_mul_right ?_ hpos
    linarith
  · intro hodd
    refine lt_of_mul_lt_mul_right ?_ hpos.le
    linarith [htie hodd]

/-! ## Either sign -/

/-- The nearest float to any number: its magnitude is rounded. -/
def roundRat (x : ℚ) : ℚ := if x < 0 then -toNearest (-x) else toNearest x

theorem roundRat_of_nonneg {x : ℚ} (h : 0 ≤ x) : roundRat x = toNearest x := by
  rw [roundRat, if_neg (not_lt.2 h)]

theorem roundRat_neg (x : ℚ) : roundRat (-x) = -roundRat x := by
  unfold roundRat
  rcases lt_trichotomy x 0 with h | rfl | h
  · rw [if_neg (by linarith), if_pos h, neg_neg]
  · simp
  · rw [if_pos (by linarith), if_neg (by linarith), neg_neg]

theorem roundRat_mono {x y : ℚ} (h : x ≤ y) : roundRat x ≤ roundRat y := by
  unfold roundRat
  by_cases hy : y < 0
  · rw [if_pos hy, if_pos (lt_of_le_of_lt h hy)]
    exact neg_le_neg (toNearest_mono (by linarith) (by linarith))
  · rw [if_neg hy]
    by_cases hx : x < 0
    · rw [if_pos hx]
      have hx' := toNearest_nonneg (x := -x) (by linarith)
      have hy' := toNearest_nonneg (x := y) (by linarith)
      linarith
    · rw [if_neg hx]
      exact toNearest_mono (by linarith) h

end NeuralArch.Number
