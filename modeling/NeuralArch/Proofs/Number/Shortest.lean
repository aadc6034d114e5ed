import NeuralArch.Proofs.Number.Nearest

/-!
# Shortest digits read back

The shortest decimal of a float lies in the interval of the numbers that round to
the float, so the float is what the decimal is read as.  This holds in every
layout, since a numeral denotes the decimal that it is made of.

The interval is given in quarters of the unit at the float.  A number inside it
has the same unit, unless the float is a power of two and the number lies below:
there the unit is half as large, and the interval reaches half as far.

* `contains_iff` — what belongs to an interval.
* `toNearest_of_contains` — it rounds to the float; `toNearest_shortest`.
* `toRat_layout` — a numeral denotes its decimal.
* `toFloat_layout` — the numeral of a float is read as the float.
-/

namespace NeuralArch.Number

open Float.Model (UnpackedFloat)

/-! ## Exact comparisons -/

theorem inUnits_le_iff (m : Magnitude) (k : ℤ) (d : ℕ) :
    (m.inUnits k).1 ≤ d * (m.inUnits k).2 ↔ m.toRat ≤ d * 10 ^ k := by
  obtain ⟨c, hc, hnum, hden⟩ := exists_inUnits m k
  rw [← @Nat.cast_le ℚ, Nat.cast_mul, hnum, hden, ← mul_assoc, mul_le_mul_iff_left₀ hc]

theorem le_inUnits_iff (m : Magnitude) (k : ℤ) (d : ℕ) :
    d * (m.inUnits k).2 ≤ (m.inUnits k).1 ↔ d * 10 ^ k ≤ m.toRat := by
  obtain ⟨c, hc, hnum, hden⟩ := exists_inUnits m k
  rw [← @Nat.cast_le ℚ, Nat.cast_mul, hnum, hden, ← mul_assoc, mul_le_mul_iff_left₀ hc]

/-! ## The interval of a float -/

namespace Interval

/-- What belongs to an interval. -/
theorem contains_iff {i : Interval} {d : ℕ} {k : ℤ} :
    i.contains d k = true ↔
      if i.closed then i.low * 2 ^ i.exponent ≤ (d : ℚ) * 10 ^ k ∧
        (d : ℚ) * 10 ^ k ≤ i.high * 2 ^ i.exponent
      else i.low * 2 ^ i.exponent < (d : ℚ) * 10 ^ k ∧
        (d : ℚ) * 10 ^ k < i.high * 2 ^ i.exponent := by
  have hlow := inUnits_le_iff ⟨i.low, i.exponent⟩ k d
  have hlow' := le_inUnits_iff ⟨i.low, i.exponent⟩ k d
  have hhigh := inUnits_le_iff ⟨i.high, i.exponent⟩ k d
  have hhigh' := le_inUnits_iff ⟨i.high, i.exponent⟩ k d
  unfold contains
  dsimp only
  split
  · rw [Bool.and_eq_true, decide_eq_true_iff, decide_eq_true_iff]
    exact and_congr hlow hhigh'
  · rw [Bool.and_eq_true, decide_eq_true_iff, decide_eq_true_iff, ← not_le, ← not_le, ← not_le,
      ← not_le]
    exact and_congr (not_congr hlow') (not_congr hhigh)

theorem le_low (m : Magnitude) : (4 * m.mantissa - 2 : ℚ) ≤ (Interval.of m).low := by
  have hle : 4 * m.mantissa ≤ (Interval.of m).low + 2 := by
    show _ ≤ 4 * m.mantissa - (if _ then 1 else 2) + 2
    split <;> omega
  have hcast : (4 * m.mantissa : ℚ) ≤ (Interval.of m).low + 2 := by exact_mod_cast hle
  linarith

theorem le_low_of_power {m : Magnitude} (hpower : m.mantissa = fractionCount)
    (hleast : leastExponent < m.exponent) : (4 * m.mantissa - 1 : ℚ) ≤ (Interval.of m).low := by
  have hle : 4 * m.mantissa ≤ (Interval.of m).low + 1 := by
    show _ ≤ 4 * m.mantissa - (if _ then 1 else 2) + 1
    split <;> omega
  have hcast : (4 * m.mantissa : ℚ) ≤ (Interval.of m).low + 1 := by exact_mod_cast hle
  linarith

/-- The ends are half a unit away, and below a power of two a quarter. -/
theorem near_of_contains {m : Magnitude} {d : ℕ} {k : ℤ}
    (h : (Interval.of m).contains d k = true) :
    |(d : ℚ) * 10 ^ k - m.toRat| ≤ 2 ^ m.exponent / 2 ∧
      (m.mantissa % 2 = 1 → |(d : ℚ) * 10 ^ k - m.toRat| < 2 ^ m.exponent / 2) ∧
      (m.mantissa = fractionCount → leastExponent < m.exponent →
        m.toRat - 2 ^ m.exponent / 4 ≤ d * 10 ^ k) := by
  have hpos := zpow_two_pos m.exponent
  have hquarter : (2 : ℚ) ^ (Interval.of m).exponent = 2 ^ m.exponent / 4 := by
    show (2 : ℚ) ^ (m.exponent - 2) = _
    rw [zpow_sub₀ (by norm_num)]
    norm_num
  have hhigh : ((Interval.of m).high : ℚ) = 4 * m.mantissa + 2 := by
    rw [Interval.of]
    push_cast
    rfl
  have hlow := mul_le_mul_of_nonneg_right (le_low m) hpos.le
  rw [contains_iff, hquarter, hhigh] at h
  rw [Magnitude.toRat]
  refine ⟨?_, ?_, ?_⟩
  · rw [abs_le]
    split at h <;> constructor <;> linarith
  · intro hodd
    have hopen : ¬ (Interval.of m).closed = true := by
      show ¬ decide (m.mantissa % 2 = 0) = true
      rw [decide_eq_true_iff]
      omega
    rw [if_neg hopen] at h
    rw [abs_lt]
    constructor <;> linarith
  · intro hpower hleast
    have hlow := mul_le_mul_of_nonneg_right (le_low_of_power hpower hleast) hpos.le
    split at h <;> linarith

theorem two_zpow_add (e : ℤ) (n : ℕ) : (2 : ℚ) ^ (e + n) = (2 ^ n : ℕ) * 2 ^ e := by
  rw [add_comm, zpow_add₀ (by norm_num), zpow_natCast]
  push_cast
  rfl

/-- A number with the unit of a float, half a unit away from it at most. -/
theorem toNearest_of_near {m : Magnitude} (hm : 0 < m.mantissa) (hlt : m.mantissa < 2 ^ 53)
    (hleast : leastExponent ≤ m.exponent) {x : ℚ}
    (hsize : m.exponent = leastExponent ∨ 2 ^ (m.exponent + 52) ≤ x)
    (hnear : |x - m.toRat| ≤ 2 ^ m.exponent / 2)
    (htie : m.mantissa % 2 = 1 → |x - m.toRat| < 2 ^ m.exponent / 2) : toNearest x = m.toRat := by
  have hpos := zpow_two_pos m.exponent
  obtain ⟨hlow, hhigh⟩ := abs_le.1 hnear
  rw [Magnitude.toRat] at hnear htie hlow hhigh ⊢
  have hx : 0 < x := by
    have hone : (1 : ℚ) ≤ m.mantissa := by exact_mod_cast hm
    have := mul_le_mul_of_nonneg_right hone hpos.le
    linarith
  have hbound : x < 2 ^ (m.exponent + 53) := by
    have hle : (m.mantissa + 1 : ℚ) ≤ (2 ^ 53 : ℕ) := by exact_mod_cast hlt
    have := mul_le_mul_of_nonneg_right hle hpos.le
    have := two_zpow_add m.exponent 53
    push_cast at *
    linarith
  exact toNearest_eq (n := m.mantissa) (unitExponent_eq hx hsize hbound hleast) hnear
    (fun hodd => htie (by omega))

/-- Below a power of two the unit is half as large, so within a quarter numbers round to the
power. -/
theorem toNearest_below_power {m : Magnitude} (hpower : m.mantissa = fractionCount)
    (hleast : leastExponent < m.exponent) {x : ℚ} (hlow : m.toRat - 2 ^ m.exponent / 4 ≤ x)
    (hbelow : x < 2 ^ (m.exponent + 52)) : toNearest x = m.toRat := by
  have hpos := zpow_two_pos m.exponent
  have hhalf : (2 : ℚ) ^ (m.exponent - 1) = 2 ^ m.exponent / 2 := zpow_sub_one₀ (by norm_num) _
  have hexact : m.toRat = (2 ^ 53 : ℤ) * 2 ^ (m.exponent - 1) := by
    rw [Magnitude.toRat, hpower, hhalf, fractionCount]
    push_cast
    ring
  have hx : 2 ^ (m.exponent + (51 : ℕ)) ≤ x := by
    rw [two_zpow_add]
    rw [hexact, hhalf] at hlow
    push_cast at *
    linarith
  have hunit : unitExponent x = m.exponent - 1 := by
    refine unitExponent_eq (lt_of_lt_of_le (zpow_two_pos _) hx) (.inr ?_) ?_ (by omega)
    · rwa [show m.exponent - 1 + 52 = m.exponent + (51 : ℕ) by omega]
    · rwa [show m.exponent - 1 + 53 = m.exponent + 52 by omega]
  have hdist : |x - m.toRat| ≤ 2 ^ (m.exponent - 1) / 2 := by
    have := two_zpow_add m.exponent 52
    rw [abs_le, hhalf]
    constructor
    · linarith
    · rw [hexact, hhalf]
      push_cast at *
      linarith
  rw [hexact] at hdist ⊢
  exact toNearest_eq hunit hdist (fun hodd => absurd hodd (by decide))

/-- What belongs to the interval of a float rounds to the float. -/
theorem toNearest_of_contains {m : Magnitude} (hm : 0 < m.mantissa)
    (hcanonical : Canonical (m.parts false)) {d : ℕ} {k : ℤ}
    (h : (Interval.of m).contains d k = true) : toNearest (d * 10 ^ k) = m.toRat := by
  obtain ⟨hnear, htie, hnarrow⟩ := near_of_contains h
  obtain ⟨hlt, hleast, hfull⟩ := bounds_of_canonical hm hcanonical
  by_cases hsize : m.exponent = leastExponent ∨ 2 ^ (m.exponent + 52) ≤ (d : ℚ) * 10 ^ k
  · exact toNearest_of_near hm hlt hleast hsize hnear htie
  · -- The number has fewer digits before the unit than the float, so the float is a power of two.
    obtain ⟨hne, hbelow⟩ := not_or.1 hsize
    have hpower : m.mantissa = fractionCount := by
      have hlow := (abs_le.1 hnear).1
      have hpos := zpow_two_pos m.exponent
      have hdigits := two_zpow_add m.exponent 52
      rw [Magnitude.toRat] at hlow
      have hle : (m.mantissa : ℚ) * 2 ^ m.exponent < (2 ^ 52 + 1 : ℕ) * 2 ^ m.exponent := by
        push_cast at *
        linarith
      have hlt : m.mantissa < 2 ^ 52 + 1 := by
        exact_mod_cast lt_of_mul_lt_mul_right hle hpos.le
      rw [fractionCount]
      omega
    have hgreater : leastExponent < m.exponent := by omega
    exact toNearest_below_power hpower hgreater (hnarrow hpower hgreater) (not_le.1 hbelow)

end Interval

/-! ## The search -/

/-- What the search finds belongs to the interval, unless it is the exact decimal. -/
theorem coarsest_cases (tie : Tie) (i : Interval) (n : ℕ) :
    i.contains (i.coarsest tie n).1 (i.coarsest tie n).2 = true ∨
      i.coarsest tie n = i.coarsest tie 0 := by
  induction n with
  | zero => exact .inr rfl
  | succ n ih =>
    cases hgrid : i.onGrid? tie (n + leastExponent) with
    | some d =>
      have hfound : i.coarsest tie (n + 1) = (d, n + leastExponent) := by
        rw [Interval.coarsest, hgrid]
      rw [hfound]
      exact .inl (Interval.contains_of_onGrid? hgrid)
    | none =>
      have hnext : i.coarsest tie (n + 1) = i.coarsest tie n := by
        rw [Interval.coarsest, hgrid]
      rw [hnext]
      exact ih

/-- Every magnitude lies on the finest grid. -/
theorem coarsest_zero {m : Magnitude} (hleast : leastExponent ≤ m.exponent) (tie : Tie) :
    (((Interval.of m).coarsest tie 0).1 : ℚ) * 10 ^ ((Interval.of m).coarsest tie 0).2 =
      m.toRat := by
  set middle : Magnitude := ⟨4 * m.mantissa, m.exponent - 2⟩ with hmiddle
  have hsame : middle.toRat = m.toRat := by
    rw [Magnitude.toRat, Magnitude.toRat, hmiddle, zpow_sub₀ (by norm_num)]
    push_cast
    ring
  obtain ⟨c, hc, hnum, hden⟩ := exists_inUnits middle leastExponent
  set q : ℕ := m.mantissa * 2 ^ (m.exponent - leastExponent).toNat * 5 ^ (-leastExponent).toNat
    with hq
  have hgrid : (q : ℚ) * 10 ^ leastExponent = m.toRat := by
    have hfive : (5 : ℚ) ^ (-leastExponent).toNat * 5 ^ leastExponent = 1 := by
      rw [mul_comm, zpow_mul_pow_toNat (by norm_num)]
      rfl
    have htwo : (2 : ℚ) ^ (m.exponent - leastExponent).toNat * 2 ^ leastExponent =
        2 ^ m.exponent := by
      rw [← zpow_natCast, ← zpow_add₀ (by norm_num), Int.toNat_of_nonneg (by omega),
        sub_add_cancel]
    rw [hq, Magnitude.toRat, show (10 : ℚ) = 2 * 5 by norm_num, mul_zpow, ← htwo]
    push_cast
    calc _ = m.mantissa * (2 ^ (m.exponent - leastExponent).toNat * 2 ^ leastExponent) *
          ((5 : ℚ) ^ (-leastExponent).toNat * 5 ^ leastExponent) := by ring
      _ = _ := by rw [hfive, mul_one]
  have hdiv : (middle.inUnits leastExponent).1 / (middle.inUnits leastExponent).2 = q := by
    apply Nat.div_eq_of_eq_mul_left (middle.inUnits_pos _)
    have heq : ((middle.inUnits leastExponent).1 : ℚ) = q * (middle.inUnits leastExponent).2 := by
      rw [hnum, hden, hsame, ← hgrid]
      ring
    exact_mod_cast heq
  show (((middle.inUnits leastExponent).1 / (middle.inUnits leastExponent).2 : ℕ) : ℚ) *
    10 ^ leastExponent = _
  rw [hdiv, hgrid]

/-- The shortest decimal of a float rounds to the float. -/
theorem toNearest_shortest {m : Magnitude} (hcanonical : Canonical (m.parts false)) (tie : Tie) :
    toNearest ((shortest tie m).1 * 10 ^ (shortest tie m).2) = m.toRat := by
  unfold shortest
  split
  · next hzero =>
    rw [Magnitude.toRat, hzero]
    simp
  · next hne =>
    have hm : 0 < m.mantissa := Nat.pos_of_ne_zero hne
    rcases coarsest_cases tie (Interval.of m) 1384 with hin | hexact
    · exact Interval.toNearest_of_contains hm hcanonical hin
    · obtain ⟨hlt, hleast, -⟩ := bounds_of_canonical hm hcanonical
      rw [hexact, coarsest_zero hleast, Magnitude.toRat, toNearest_of_dyadic hlt hleast]

/-! ## Numerals -/

/-- The decimal that a numeral denotes, without its sign. -/
def Numeral.toRat (n : Numeral) : ℚ := n.significand * 10 ^ n.scale

theorem toRat_plain (negative point : Bool) (d : ℕ) (k : ℤ) :
    (plain negative point d k).toRat = d * 10 ^ k := by
  by_cases hscale : 0 ≤ k
  · rw [plain, if_pos hscale, Numeral.toRat, Numeral.significand, Numeral.scale,
      ← cast_mul_pow_toNat d hscale]
    cases point with
    | false => simp [natOfDigits_digitsOfNat]
    | true =>
      have hzero : digitValue '0' = 0 := rfl
      simp only [if_true, natOfDigits_append_singleton, natOfDigits_digitsOfNat, hzero, zero_sub,
        add_zero, List.length_singleton, Nat.cast_one, zpow_neg_one]
      push_cast
      ring
  · obtain ⟨places, rfl⟩ : ∃ places : ℕ, k = -(places : ℤ) := ⟨(-k).toNat, by omega⟩
    obtain ⟨whole, fraction, hplain, -, -, hlength, hvalue, -⟩ :=
      exists_plain negative point (by omega : 0 < places) d
    rw [hplain, Numeral.toRat, Numeral.significand, Numeral.scale, hvalue, hlength]
    simp

theorem significand_scientific (negative : Bool) (d : ℕ) (k : ℤ) :
    (scientific negative d k).significand = d := by
  rw [scientific, Numeral.significand]
  dsimp only
  rw [List.take_append_drop, natOfDigits_digitsOfNat]

theorem scale_scientific (negative : Bool) (d : ℕ) (k : ℤ) :
    (scientific negative d k).scale = k := by
  rw [scientific]
  set place : ℤ := k + ((digitsOfNat d).length - 1 : ℕ) with hplace
  by_cases hneg : place < 0
  · rw [decide_eq_true hneg]
    show -(natOfDigits (digitsOfNat place.natAbs) : ℤ) - ((digitsOfNat d).drop 1).length = k
    rw [natOfDigits_digitsOfNat, List.length_drop]
    omega
  · rw [decide_eq_false hneg]
    show (natOfDigits (digitsOfNat place.natAbs) : ℤ) - ((digitsOfNat d).drop 1).length = k
    rw [natOfDigits_digitsOfNat, List.length_drop]
    omega

theorem toRat_scientific (negative : Bool) (d : ℕ) (k : ℤ) :
    (scientific negative d k).toRat = d * 10 ^ k := by
  rw [Numeral.toRat, significand_scientific, scale_scientific]

/-- Whatever the style, a numeral denotes the shortest decimal. -/
theorem toRat_layout (s : FloatStyle) (negative : Bool) (m : Magnitude) :
    (s.layout negative m).toRat = (shortest s.tie m).1 * 10 ^ (shortest s.tie m).2 := by
  unfold FloatStyle.layout
  dsimp only
  split
  · exact toRat_plain _ _ _ _
  · exact toRat_scientific _ _ _

theorem negative_layout (s : FloatStyle) (negative : Bool) (m : Magnitude) :
    (s.layout negative m).negative = negative := by
  unfold FloatStyle.layout plain scientific
  dsimp only
  split
  · split <;> rfl
  · rfl

/-- A numeral is read as the float that its decimal rounds to; a zero has its sign. -/
theorem Numeral.toFloat_eq {n : Numeral} {x : Float} {m : Magnitude}
    (h : FloatClass.of x = .finite n.negative m) (hround : toNearest n.toRat = m.toRat)
    (hzero : m.mantissa = 0 → n.toRat = 0) : n.toFloat = x := by
  rw [Numeral.toFloat]
  rcases Nat.eq_zero_or_pos m.mantissa with hm | hm
  · have hsignificand : n.significand = 0 := by
      have hvalue := hzero hm
      rw [Numeral.toRat, mul_eq_zero, Nat.cast_eq_zero] at hvalue
      exact hvalue.resolve_right (zpow_pos (by norm_num) _).ne'
    rw [hsignificand]
    exact nearest_zero h hm _
  · exact eq_nearest h hm hround

/-- The numeral of a float is read as the float, whatever the style. -/
theorem toFloat_layout {x : Float} {negative : Bool} {m : Magnitude}
    (h : FloatClass.of x = .finite negative m) (s : FloatStyle) :
    (s.layout negative m).toFloat = x := by
  refine Numeral.toFloat_eq (by rwa [negative_layout]) ?_ fun hm => ?_
  · rw [toRat_layout]
    exact toNearest_shortest (canonical_parts h false) s.tie
  · have hshort : shortest s.tie m = (0, 0) := if_pos hm
    rw [toRat_layout, hshort, Nat.cast_zero, zero_mul]

end NeuralArch.Number
