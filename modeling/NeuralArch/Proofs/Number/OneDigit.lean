import NeuralArch.Proofs.Number.Written

/-!
# Floats written with one digit

A float is written with one digit as the nearest one-digit number at the place
of its leading digit, and no one-digit number at another place is nearer.  So if
the float is that of any decimal with one digit, it is that of the one that is
written: either floats are so close together here that the two decimals are the
same, or the unit is the least one, and then what is nearer rounds to the float
as well.

* `leadingPlace_spec` — the place of the leading digit.
* `oneDigit_nearest` — what is written is as near as any one-digit number.
* `toNearest_oneDigit` — it is rounded to the float if any one-digit number is.
* `readFloat?_oneDigit_iff` — so the float is read back just if it has one digit.
-/

namespace NeuralArch.Number

/-! ## Near a float -/

/-- What is rounded to a float has no greater unit than the float. -/
theorem unitExponent_le_of_toNearest {m : Magnitude} (hm : 0 < m.mantissa)
    (hcanonical : Canonical (m.parts false)) {x : ℚ} (hx : 0 < x) (h : toNearest x = m.toRat) :
    unitExponent x ≤ m.exponent := by
  obtain ⟨hlt, hleast, -⟩ := bounds_of_canonical hm hcanonical
  by_contra hgt
  have hfull : (2 ^ 52 : ℕ) * (2 : ℚ) ^ unitExponent x ≤ x := by
    have hdigits := le_div_unit hx (lt_of_le_of_lt hleast (not_le.1 hgt))
    rw [le_div_iff₀ (unit_pos x)] at hdigits
    exact_mod_cast hdigits
  have hround := toNearest_mono (mul_nonneg (Nat.cast_nonneg _) (zpow_two_pos _).le) hfull
  rw [toNearest_of_dyadic (by norm_num) (hleast.trans (not_le.1 hgt).le), h, Magnitude.toRat]
    at hround
  exact absurd hround (not_le.2 (mul_zpow_lt_of_exponent_lt hlt le_rfl (not_le.1 hgt)))

/-- What is rounded to a float is within half a unit of it. -/
theorem near_of_toNearest {m : Magnitude} (hm : 0 < m.mantissa)
    (hcanonical : Canonical (m.parts false)) {x : ℚ} (hx : 0 < x) (h : toNearest x = m.toRat) :
    |x - m.toRat| ≤ 2 ^ m.exponent / 2 ∧
      (m.mantissa % 2 = 1 → |x - m.toRat| < 2 ^ m.exponent / 2) := by
  have hunit := unit_pos x
  obtain ⟨hnear, htie⟩ := roundEven_near (x / unit x)
  have hdist : |x - m.toRat| = |x / unit x - roundEven (x / unit x)| * unit x := by
    rw [← h, toNearest, abs_sub_mul hunit]
  rw [hdist]
  rcases (unitExponent_le_of_toNearest hm hcanonical hx h).lt_or_eq with hexp | hexp
  · have hsmall : unit x < 2 ^ m.exponent := zpow_lt_zpow_right₀ (by norm_num) hexp
    have := mul_le_mul_of_nonneg_right hnear hunit.le
    exact ⟨by linarith, fun _ => by linarith⟩
  · -- With the same unit, the mantissa is the rounded number, so it tells whether a half is a tie.
    have hpow : unit x = 2 ^ m.exponent := by rw [unit, hexp]
    have hdigits : roundEven (x / unit x) = m.mantissa := by
      rw [toNearest, Magnitude.toRat, hpow] at h
      have := mul_right_cancel₀ (zpow_two_pos m.exponent).ne' h
      rw [hpow]
      exact_mod_cast this
    rw [hpow] at hnear htie hdigits ⊢
    have hpos := zpow_two_pos m.exponent
    refine ⟨?_, fun hodd => ?_⟩
    · have := mul_le_mul_of_nonneg_right hnear hpos.le
      linarith
    · have := mul_lt_mul_of_pos_right (htie (by rw [hdigits]; omega)) hpos
      linarith

/-! ## The place of the leading digit -/

theorem reaches_iff (m : Magnitude) (k : ℤ) : m.reaches k = true ↔ 10 ^ k ≤ m.toRat := by
  have h := le_inUnits_iff m k 1
  rw [one_mul, Nat.cast_one, one_mul] at h
  rw [Magnitude.reaches]
  exact decide_eq_true_iff.trans h

/-- The search goes down from a place above the number, and ends at the place of its leading
digit. -/
theorem placeBelow_spec {m : Magnitude} (hlow : (10 : ℚ) ^ (-324 : ℤ) ≤ m.toRat) {n : ℕ}
    (hhigh : m.toRat < 10 ^ (n - 324 : ℤ)) :
    10 ^ m.placeBelow n ≤ m.toRat ∧ m.toRat < 10 ^ (m.placeBelow n + 1) := by
  induction n with
  | zero => exact absurd hhigh (not_lt.2 (by simpa using hlow))
  | succ n ih =>
    rw [Magnitude.placeBelow]
    split
    · next hreach =>
      refine ⟨(reaches_iff m _).1 hreach, ?_⟩
      rwa [show (n : ℤ) - 324 + 1 = ((n + 1 : ℕ) : ℤ) - 324 by push_cast; ring]
    · next hreach => exact ih (not_le.1 fun hle => hreach ((reaches_iff m _).2 hle))

/-- The search starts above all floats, and ends below the least unit. -/
theorem ten_zpow_le_two_zpow : (10 : ℚ) ^ (-324 : ℤ) ≤ 2 ^ leastExponent := by
  have h : 2 ^ 1074 ≤ 10 ^ 324 := by decide +kernel
  rw [leastExponent, zpow_neg, zpow_neg]
  exact inv_anti₀ (zpow_two_pos 1074) (by exact_mod_cast h)

theorem overflow_le_ten_zpow : overflow ≤ 10 ^ (309 : ℤ) := by
  have h : 2 ^ 1024 ≤ 10 ^ 309 := by decide +kernel
  rw [overflow]
  exact_mod_cast h

theorem leadingPlace_spec {x : Float} {negative : Bool} {m : Magnitude}
    (hx : FloatClass.of x = .finite negative m) (hm : 0 < m.mantissa) :
    10 ^ m.leadingPlace ≤ m.toRat ∧ m.toRat < 10 ^ (m.leadingPlace + 1) := by
  obtain ⟨-, hleast, -⟩ := bounds_of_canonical hm (canonical_parts hx false)
  refine placeBelow_spec ?_ ?_
  · have hone : (1 : ℚ) ≤ m.mantissa := by exact_mod_cast hm
    calc (10 : ℚ) ^ (-324 : ℤ) ≤ 2 ^ leastExponent := ten_zpow_le_two_zpow
      _ ≤ 2 ^ m.exponent := zpow_le_zpow_right₀ (by norm_num) hleast
      _ ≤ m.toRat := le_mul_of_one_le_left (zpow_two_pos _).le hone
  · exact lt_of_lt_of_le (toRat_lt_overflow hx) overflow_le_ten_zpow

/-! ## One digit -/

/-- What is written with one digit is the nearest multiple of the leading place. -/
theorem exists_oneDigit {x : Float} {negative : Bool} {m : Magnitude}
    (hx : FloatClass.of x = .finite negative m) :
    ∃ d k, d < 10 ∧ oneDigit x = String.ofList ((scientific negative d k).text false) ∧
      (d : ℚ) * 10 ^ k = roundEven (m.toRat / 10 ^ m.leadingPlace) * 10 ^ m.leadingPlace := by
  rw [oneDigit, hx]
  dsimp only
  split
  · next hzero =>
    refine ⟨0, 0, by decide, rfl, ?_⟩
    rw [Magnitude.toRat, hzero]
    simp
  · next hne =>
    have hm : 0 < m.mantissa := Nat.pos_of_ne_zero hne
    have hpos : (0 : ℚ) < 10 ^ m.leadingPlace := zpow_pos (by norm_num) _
    have hdigit : (roundDiv (m.inUnits m.leadingPlace).1 (m.inUnits m.leadingPlace).2 : ℤ) =
        roundEven (m.toRat / 10 ^ m.leadingPlace) := by
      obtain ⟨c, hc, hnum, hden⟩ := exists_inUnits m m.leadingPlace
      rw [roundDiv_eq_roundEven (m.inUnits_pos _), hnum, hden, mul_div_mul_right _ _ hc.ne']
    have hten : roundEven (m.toRat / 10 ^ m.leadingPlace) ≤ 10 := by
      refine roundEven_le ((div_le_iff₀ hpos).2 ?_)
      have hhigh := (leadingPlace_spec hx hm).2.le
      rwa [add_comm, zpow_add₀ (by norm_num), zpow_one] at hhigh
    rw [← hdigit] at hten ⊢
    split
    · next hround =>
      -- Ten is one at the next place.
      refine ⟨1, m.leadingPlace + 1, by decide, rfl, ?_⟩
      rw [hround, zpow_add₀ (by norm_num)]
      push_cast
      ring
    · exact ⟨_, m.leadingPlace, by omega, rfl, by push_cast; rfl⟩

/-- A decimal at a higher place is a multiple of the lower one. -/
theorem exists_multiple (d : ℕ) {k e : ℤ} (h : k ≤ e) : ∃ n : ℤ, (d : ℚ) * 10 ^ e = n * 10 ^ k := by
  refine ⟨d * 10 ^ (e - k).toNat, ?_⟩
  push_cast
  rw [mul_assoc, ← zpow_natCast, ← zpow_add₀ (by norm_num), Int.toNat_of_nonneg (by omega),
    sub_add_cancel]

/-- A one-digit number at a lower place is nine tenths of the higher one at most. -/
theorem one_digit_le {d : ℕ} (hd : d < 10) {e k : ℤ} (h : e < k) :
    10 * ((d : ℚ) * 10 ^ e) ≤ 9 * 10 ^ k := by
  have hd' : (d : ℚ) ≤ 9 := by exact_mod_cast (by omega : d ≤ 9)
  have hplace : (10 : ℚ) ^ e * 10 ≤ 10 ^ k := by
    rw [← zpow_add_one₀ (by norm_num)]
    exact zpow_le_zpow_right₀ (by norm_num) h
  calc 10 * ((d : ℚ) * 10 ^ e) = d * (10 ^ e * 10) := by ring
    _ ≤ 9 * 10 ^ k := mul_le_mul hd' hplace (by positivity) (by norm_num)

/-- No multiple of a place is nearer than the rounded one. -/
theorem place_nearest (p : ℚ) (k n : ℤ) :
    |roundEven (p / 10 ^ k) * 10 ^ k - p| ≤ |n * 10 ^ k - p| := by
  have hpos : (0 : ℚ) < 10 ^ k := zpow_pos (by norm_num) k
  rw [abs_sub_comm, abs_sub_mul hpos, abs_sub_comm _ p, abs_sub_mul hpos]
  exact mul_le_mul_of_nonneg_right (abs_sub_roundEven_le _ n) hpos.le

/-- What is written is as near as any one-digit number. -/
theorem oneDigit_nearest {p : ℚ} {k : ℤ} (hp : 10 ^ k ≤ p) {d : ℕ} (hd : d < 10) (e : ℤ) :
    |roundEven (p / 10 ^ k) * 10 ^ k - p| ≤ |d * 10 ^ e - p| := by
  rcases le_or_gt k e with hke | hke
  · obtain ⟨n, hn⟩ := exists_multiple d hke
    rw [hn]
    exact place_nearest p k n
  · -- At a lower place, the power of ten itself is in between.
    have hpos : (0 : ℚ) < 10 ^ k := zpow_pos (by norm_num) k
    have hbelow := one_digit_le hd hke
    refine (place_nearest p k 1).trans ?_
    rw [Int.cast_one, one_mul, abs_of_nonpos (by linarith), abs_of_nonpos (by linarith)]
    linarith

/-- Where floats lie close together compared with the place of the leading digit, a one-digit
number that is rounded to the float is the one that is written. -/
theorem oneDigit_unique {p u : ℚ} {k : ℤ} (hp : 10 ^ k ≤ p) (hu : 10 * u < 10 ^ k) {d : ℕ}
    (hd : d < 10) {e : ℤ} (hnear : |d * 10 ^ e - p| ≤ u / 2) :
    roundEven (p / 10 ^ k) * 10 ^ k = (d : ℚ) * 10 ^ e := by
  have hpos : (0 : ℚ) < 10 ^ k := zpow_pos (by norm_num) k
  have hnear' := (oneDigit_nearest hp hd e).trans hnear
  rcases le_or_gt k e with hke | hke
  · obtain ⟨n, hn⟩ := exists_multiple d hke
    rw [hn] at hnear ⊢
    -- Two multiples of the place are less than one place apart.
    have hdist := abs_sub_le ((roundEven (p / 10 ^ k) : ℚ) * 10 ^ k) p (n * 10 ^ k)
    rw [abs_sub_comm p, ← sub_mul, abs_mul, abs_of_pos hpos] at hdist
    have hlt : |(roundEven (p / 10 ^ k) : ℚ) - n| * 10 ^ k < 1 * 10 ^ k := by
      linarith [(abs_nonneg _).trans hnear]
    have hone : |roundEven (p / 10 ^ k) - n| < 1 := by
      exact_mod_cast lt_of_mul_lt_mul_right hlt hpos.le
    rw [sub_eq_zero.1 (Int.abs_lt_one_iff.1 hone)]
  · -- At a lower place, it is a tenth of the place away.
    exfalso
    have hbelow := one_digit_le hd hke
    have hfar := (abs_le.1 hnear).1
    have hu0 := (abs_nonneg _).trans hnear
    linarith

/-- The nearest one-digit number is rounded to the float, if any one-digit number is. -/
theorem toNearest_oneDigit {x : Float} {negative : Bool} {m : Magnitude}
    (hx : FloatClass.of x = .finite negative m) {d : ℕ} (hd : d < 10) {e : ℤ}
    (h : toNearest (d * 10 ^ e) = m.toRat) :
    toNearest (roundEven (m.toRat / 10 ^ m.leadingPlace) * 10 ^ m.leadingPlace) = m.toRat := by
  rcases Nat.eq_zero_or_pos m.mantissa with hzero | hm
  · rw [Magnitude.toRat, hzero]
    simp
  have hcanonical := canonical_parts hx false
  obtain ⟨hlt, hleast, hfull⟩ := bounds_of_canonical hm hcanonical
  obtain ⟨hlow, hhigh⟩ := leadingPlace_spec hx hm
  have hpos : 0 < m.toRat := finite_pos hm
  have hd0 : 0 < (d : ℚ) * 10 ^ e := by
    refine lt_of_le_of_ne (mul_nonneg (Nat.cast_nonneg d) (zpow_pos (by norm_num) e).le) fun h0 => ?_
    rw [← h0, toNearest_zero] at h
    exact hpos.ne h
  obtain ⟨hnear, htie⟩ := near_of_toNearest hm hcanonical hd0 h
  have hclosest := oneDigit_nearest hlow hd e
  by_cases hexp : m.exponent = leastExponent
  · exact Interval.toNearest_of_near hm hlt hleast (.inl hexp) (hclosest.trans hnear)
      fun hodd => lt_of_le_of_lt hclosest (htie hodd)
  · have hwide : 10 * (2 : ℚ) ^ m.exponent < 10 ^ m.leadingPlace := by
      have h52 : ((2 ^ 52 : ℕ) : ℚ) ≤ m.mantissa := by exact_mod_cast hfull.resolve_right hexp
      have hbig := mul_le_mul_of_nonneg_right h52 (zpow_two_pos m.exponent).le
      rw [← Magnitude.toRat] at hbig
      rw [zpow_add₀ (by norm_num), zpow_one] at hhigh
      have := zpow_two_pos m.exponent
      push_cast at hbig
      linarith
    rw [oneDigit_unique hlow hwide hd hnear, h]

/-! ## Reading back -/

/-- Whether a float is that of a decimal with one digit. -/
def HasOneDigit (x : Float) : Prop := ∃ negative d k, d < 10 ∧ nearest negative d k = x

theorem toNearest_of_nearest {x : Float} {negative sign : Bool} {m : Magnitude}
    (hx : FloatClass.of x = .finite negative m) {d : ℕ} {k : ℤ} (h : nearest sign d k = x) :
    toNearest (d * 10 ^ k) = m.toRat := by
  have hround := toNearest_nonneg (decimal_nonneg d k)
  have hsigned := congrArg abs ((h ▸ rounds_nearest_signed sign d k).eq (toRat?_of_class hx))
  rwa [abs_signed, abs_signed, abs_of_nonneg hround,
    abs_of_nonneg m.toRat_nonneg] at hsigned

/-- The float is read back from the text just if it has one digit. -/
theorem readFloat?_oneDigit_iff {x : Float} (hfinite : x.isFinite = true) :
    readFloat? (oneDigit x) = some x ↔ HasOneDigit x := by
  obtain ⟨negative, m, hx⟩ := isFinite_iff_class.1 hfinite
  obtain ⟨d, k, hd, htext, hvalue⟩ := exists_oneDigit hx
  rw [htext, readFloat?_text (wellFormed_scientific _ _ _), Option.some.injEq]
  constructor
  · intro hread
    rw [Numeral.toFloat, significand_scientific, scale_scientific] at hread
    exact ⟨_, d, k, hd, hread⟩
  · rintro ⟨sign, d', k', hd', hdecimal⟩
    refine Numeral.toFloat_eq hx ?_ fun hzero => ?_
    · rw [toRat_scientific, hvalue]
      exact toNearest_oneDigit hx hd' (toNearest_of_nearest hx hdecimal)
    · rw [toRat_scientific, hvalue, Magnitude.toRat, hzero]
      simp

end NeuralArch.Number
