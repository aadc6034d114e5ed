import NeuralArch.Proofs.Number.Layout
import NeuralArch.Proofs.Number.Parts

/-!
# Nearest floats

The float that a decimal is read as denotes the decimal's number, rounded, unless
that is too large for a float.  Decimals of few digits are computed by one
operation on exact floats, all others on parts with enough digits; both round
once.  What is settled by counting digits alone is far out of range.

* `rounds_ofScientific_whole`, `rounds_ofScientific_fraction` — the two ways to
  compute a float of a decimal.
* `rounds_nearest`, `toRat?_nearest` — the float of a decimal denotes the rounded number.
* `eq_nearest`, `nearest_zero` — it is the float, sign included, that denotes the rounded number.
* `isNaN_nearest`, `eq_infinity_of_not_finite` — if it is not finite, it is an infinity.
-/

namespace NeuralArch.Number

open Float.Model (UnpackedFloat Format)
open Float.Model.UnpackedFloat (Sign)

/-! ## Powers of ten -/

/-- A power of ten that is a float. -/
def powerOfTen (i : Fin 23) : Float :=
  Float.exactlyRepresentablePowersOfTen[i]

theorem toRat?_powerOfTen (i : Fin 23) : toRat? (powerOfTen i) = some (10 ^ i.val) := by
  revert i
  decide +kernel

/-! ## Decimals of either kind -/

/-- A whole number is computed as a product by one, from a mantissa with 53 more digits. -/
theorem ofScientific_whole {m : ℕ} (hm : 0 < m) (hshift : 0 < m <<< 53) :
    UnpackedFloat.ofScientific Format.binary64 m 0 =
      UnpackedFloat.mul Format.binary64 (.finite .positive (m <<< 53) (-53) hshift)
        (.finite .positive 1 0 one_pos) := by
  have hbig : ¬ (0 : ℤ) > 2 ^ Format.binary64.exponentBits := by decide
  have hsmall : ¬ (0 : ℤ) < -(2 ^ Format.binary64.exponentBits + (m.log2 : ℤ)) := by
    have hpos : (0 : ℤ) < 2 ^ Format.binary64.exponentBits := by decide
    omega
  rw [UnpackedFloat.ofScientific, dif_neg hm.ne', if_neg hbig, if_neg hsmall,
    if_pos (le_refl 0)]
  rfl

theorem rounds_ofScientific_whole {m : ℕ} (hm : 0 < m) :
    Rounds (Float.ofScientific m false 0) (roundRat m) := by
  by_cases hfew : m < 2 ^ 53
  · rw [roundRat_natCast hfew]
    exact .inl (toRat?_ofNat hfew)
  · have hshift : 0 < m <<< 53 := by
      rw [Nat.shiftLeft_eq]
      exact Nat.mul_pos hm (by norm_num)
    have hcast : ((m <<< 53 : ℕ) : ℚ) * 2 ^ (-53 : ℤ) = m := by
      rw [Nat.shiftLeft_eq, Nat.cast_mul, Nat.cast_pow, Nat.cast_ofNat, ← zpow_natCast, mul_assoc,
        ← zpow_add₀ (by norm_num)]
      norm_num
    have hunit : (-53 + 0 : ℤ) ≤ unitExponent ((m <<< 53 * 1 : ℕ) * 2 ^ (-53 + 0 : ℤ)) := by
      have hone : (2 : ℚ) ^ (53 : ℤ) ≤ (m <<< 53 * 1 : ℕ) := by
        rw [Nat.shiftLeft_eq, mul_one]
        exact_mod_cast Nat.le_mul_of_pos_left (2 ^ 53) hm
      have hlog := le_log_mul_zpow hone (-53 + 0)
      have hunit : Int.log 2 (((m <<< 53 * 1 : ℕ) : ℚ) * 2 ^ (-53 + 0 : ℤ)) - 52 ≤
          unitExponent ((m <<< 53 * 1 : ℕ) * 2 ^ (-53 + 0 : ℤ)) := le_max_left _ _
      omega
    have hdenotes := @denotes_mul_finite .positive .positive _ _ _ _ hshift one_pos hunit
    have hvalue : ((Sign.positive.apply (m <<< 53 : ℕ) : ℤ) : ℚ) * 2 ^ (-53 : ℤ) *
        ((Sign.positive.apply (1 : ℕ) : ℤ) * 2 ^ (0 : ℤ)) = m := by
      rw [cast_apply, cast_apply, factor_positive, one_mul, one_mul, Int.cast_natCast, hcast]
      norm_num
    rw [hvalue, ← ofScientific_whole hm hshift] at hdenotes
    rw [Float.ofScientific, dif_neg fun h => hfew h.1]
    exact rounds_pack hdenotes

/-- A quotient by a power of ten is computed from the mantissa and the power. -/
theorem ofScientific_fraction {m k : ℕ} (hm : 0 < m) (hk : 0 < k) (hle : k ≤ 2 ^ 11 + m.log2)
    (hpow : 0 < 10 ^ k) :
    UnpackedFloat.ofScientific Format.binary64 m (Int.negOfNat k) =
      UnpackedFloat.div Format.binary64 (.finite .positive m 0 hm)
        (.finite .positive (10 ^ k) 0 hpow) := by
  have hneg : Int.negOfNat k = -(k : ℤ) := by
    cases k <;> rfl
  have hbits : (2 : ℤ) ^ Format.binary64.exponentBits = 2 ^ 11 := rfl
  have hbig : ¬ -(k : ℤ) > 2 ^ Format.binary64.exponentBits := by omega
  have hsmall : ¬ -(k : ℤ) < -(2 ^ Format.binary64.exponentBits + (m.log2 : ℤ)) := by
    omega
  have hexp : (- -(k : ℤ)).toNat = k := by omega
  rw [hneg, UnpackedFloat.ofScientific, dif_neg hm.ne', if_neg hbig, if_neg hsmall,
    if_neg (by omega)]
  simp only [hexp]

theorem rounds_ofScientific_fraction {m k : ℕ} (hm : 0 < m) (hk : 0 < k)
    (hle : k ≤ 2 ^ 11 + m.log2) :
    Rounds (Float.ofScientific m true k) (roundRat (m / 10 ^ k)) := by
  have hne : (10 : ℚ) ^ k ≠ 0 := pow_ne_zero k (by norm_num)
  by_cases hfew : m < 2 ^ 53 ∧ k ≤ 22
  · have hdiv : Float.ofScientific m true k =
        m.toUInt64.toFloat / powerOfTen ⟨k, by omega⟩ := by
      rw [Float.ofScientific, dif_pos hfew]
      rfl
    rw [hdiv]
    exact rounds_pack
      (denotes_div (toRat?_toFloat hfew.1) (toRat?_powerOfTen ⟨k, by omega⟩) hne)
  · have hpow : 0 < 10 ^ k := Nat.pow_pos (by norm_num)
    have hnum : rat? (.finite .positive m 0 hm) = some (m : ℚ) := by simp [rat?, Sign.apply]
    have hden : rat? (.finite .positive (10 ^ k) 0 hpow) = some ((10 : ℚ) ^ k) := by
      simp [rat?, Sign.apply]
    have hdenotes := denotes_div hnum hden hne
    rw [← ofScientific_fraction hm hk hle] at hdenotes
    rw [Float.ofScientific, dif_neg hfew]
    exact rounds_pack hdenotes

/-! ## Any scale -/

theorem decimal_nonneg (m : ℕ) (k : ℤ) : (0 : ℚ) ≤ m * 10 ^ k :=
  mul_nonneg (Nat.cast_nonneg m) (zpow_pos (by norm_num) k).le

/-- A number lies below the place in front of its first digit. -/
theorem mul_zpow_lt_place (m : ℕ) (k : ℤ) :
    (m : ℚ) * 10 ^ k < 10 ^ (k + (digitsOfNat m).length) := by
  have hlt : m < 10 ^ (digitsOfNat m).length :=
    (Nat.length_toDigits_le_iff (by decide) Nat.length_toDigits_pos).1 le_rfl
  have hcast : (m : ℚ) < 10 ^ ((digitsOfNat m).length : ℤ) := by
    rw [zpow_natCast]
    exact_mod_cast hlt
  rw [add_comm, zpow_add₀ (by norm_num)]
  exact mul_lt_mul_of_pos_right hcast (zpow_pos (by norm_num) k)

/-- It reaches the place of its first digit. -/
theorem place_le_mul_zpow {m : ℕ} (hm : 0 < m) (k : ℤ) :
    (10 : ℚ) ^ (k + (digitsOfNat m).length - 1) ≤ m * 10 ^ k := by
  obtain ⟨n, hn⟩ : ∃ n, (digitsOfNat m).length = n + 1 :=
    ⟨_, (Nat.succ_pred_eq_of_pos Nat.length_toDigits_pos).symm⟩
  have hle : 10 ^ n ≤ m := by
    by_contra hlt
    rcases Nat.eq_zero_or_pos n with rfl | hpos
    · exact hlt hm
    · have hlength : (digitsOfNat m).length ≤ n :=
        (Nat.length_toDigits_le_iff (by decide) hpos).2 (not_le.1 hlt)
      omega
  have hcast : (10 : ℚ) ^ (n : ℤ) ≤ m := by
    rw [zpow_natCast]
    exact_mod_cast hle
  have hexp : k + (digitsOfNat m).length - 1 = n + k := by
    rw [hn]
    push_cast
    ring
  rw [hexp, zpow_add₀ (by norm_num)]
  exact mul_le_mul_of_nonneg_right hcast (zpow_pos (by norm_num) k).le

theorem two_zpow_le_ten_zpow {e : ℤ} (h : e ≤ 1200) : (2 : ℚ) ^ e ≤ 10 ^ (400 : ℤ) :=
  calc (2 : ℚ) ^ e ≤ 2 ^ ((3 : ℤ) * 400) := zpow_le_zpow_right₀ (by norm_num) (by omega)
    _ = (2 ^ (3 : ℤ)) ^ (400 : ℤ) := zpow_mul 2 3 400
    _ ≤ 10 ^ (400 : ℤ) := zpow_le_zpow_left₀ (by norm_num) (by norm_num) (by norm_num)

/-- A quarter of the least unit is nothing. -/
theorem toNearest_of_le {x : ℚ} (h0 : 0 ≤ x) (h : x ≤ 2 ^ (-1076 : ℤ)) : toNearest x = 0 := by
  have hlog : Int.log 2 ((2 : ℚ) ^ (-1076 : ℤ)) = -1076 :=
    Int.log_zpow (by norm_num) _
  have hunit : unit (2 ^ (-1076 : ℤ)) = 2 ^ (-1074 : ℤ) := by
    rw [unit, unitExponent, hlog]
    rfl
  have hquarter : (2 : ℚ) ^ (-1076 : ℤ) / 2 ^ (-1074 : ℤ) = 1 / 4 := by
    rw [← zpow_sub₀ (by norm_num)]
    norm_num
  have hround : roundEven (1 / 4) = 0 := by
    norm_num [roundEven, Int.fract]
  have hzero : toNearest (2 ^ (-1076 : ℤ)) = 0 := by
    rw [toNearest, hunit, hquarter, hround, Int.cast_zero, zero_mul]
  exact le_antisymm (hzero ▸ toNearest_mono h0 h) (toNearest_nonneg h0)

/-- Far below the least unit, whatever the digits. -/
theorem mul_zpow_le_of_low {m : ℕ} {k : ℤ} (h : k + (digitsOfNat m).length < -400) :
    (m : ℚ) * 10 ^ k ≤ 2 ^ (-1076 : ℤ) := by
  have hplace : (10 : ℚ) ^ (k + (digitsOfNat m).length) ≤ 10 ^ (-400 : ℤ) :=
    zpow_le_zpow_right₀ (by norm_num) h.le
  have hbound : (10 : ℚ) ^ (-400 : ℤ) ≤ 2 ^ (-1076 : ℤ) := by
    rw [zpow_neg, zpow_neg]
    exact inv_anti₀ (zpow_two_pos 1076) (two_zpow_le_ten_zpow (by norm_num))
  exact (mul_zpow_lt_place m k).le.trans (hplace.trans hbound)

/-- Far above all floats, whatever the digits. -/
theorem overflow_le_of_high {m : ℕ} (hm : 0 < m) {k : ℤ}
    (h : 400 < k + (digitsOfNat m).length) : overflow ≤ toNearest (m * 10 ^ k) := by
  have hplace : (10 : ℚ) ^ (400 : ℤ) ≤ 10 ^ (k + (digitsOfNat m).length - 1) :=
    zpow_le_zpow_right₀ (by norm_num) (by omega)
  have hbound : overflow ≤ 10 ^ (400 : ℤ) := two_zpow_le_ten_zpow (by norm_num)
  have hround : toNearest overflow = overflow := by
    have := @toNearest_of_dyadic 1 1024 (by norm_num) (by decide)
    rwa [Nat.cast_one, one_mul] at this
  calc overflow = toNearest overflow := hround.symm
    _ ≤ toNearest (m * 10 ^ k) :=
      toNearest_mono (zpow_two_pos 1024).le (hbound.trans (hplace.trans (place_le_mul_zpow hm k)))

theorem cast_mul_pow_toNat (m : ℕ) {k : ℤ} (h : 0 ≤ k) :
    ((m * Nat.pow 10 k.toNat : ℕ) : ℚ) = m * 10 ^ k := by
  rw [Nat.pow_eq, Nat.cast_mul, Nat.cast_pow, Nat.cast_ofNat, ← zpow_natCast,
    Int.toNat_of_nonneg h]

/-- The nearest float is the float of the rounded number. -/
theorem rounds_nearest (m : ℕ) (k : ℤ) :
    Rounds (nearest false m k) (toNearest (m * 10 ^ k)) := by
  have hx := decimal_nonneg m k
  unfold nearest
  dsimp only
  rw [if_neg Bool.false_ne_true]
  rcases Nat.eq_zero_or_pos m with rfl | hm
  · rw [if_pos (.inl rfl), Nat.cast_zero, zero_mul, toNearest_zero]
    exact .inl rfl
  by_cases hlow : k + (digitsOfNat m).length < -400
  · rw [if_pos (.inr hlow), toNearest_of_le hx (mul_zpow_le_of_low hlow)]
    exact .inl rfl
  rw [if_neg (by omega)]
  by_cases hhigh : 400 < k + (digitsOfNat m).length
  · rw [if_pos hhigh]
    exact .inr ⟨(overflow_le_of_high hm hhigh).trans (le_abs_self _), .positive, rfl⟩
  rw [if_neg hhigh, ← roundRat_of_nonneg hx]
  by_cases hscale : 0 ≤ k
  · rw [if_pos hscale, ← cast_mul_pow_toNat m hscale]
    exact rounds_ofScientific_whole (Nat.mul_pos hm (Nat.pow_pos (by norm_num)))
  · have hfraction : (m : ℚ) * 10 ^ k = m / 10 ^ (-k).toNat := by
      rw [div_eq_mul_inv, ← zpow_natCast, ← zpow_neg, Int.toNat_of_nonneg (by omega), neg_neg]
    have hdigits : (digitsOfNat m).length ≤ m.log2 + 1 := by
      rw [digitsOfNat, Nat.length_toDigits_le_iff (by decide) (Nat.succ_pos _)]
      exact lt_of_lt_of_le Nat.lt_log2_self (Nat.pow_le_pow_left (by norm_num) _)
    rw [if_neg hscale, hfraction]
    exact rounds_ofScientific_fraction hm (by omega) (by omega)

/-- The nearest float denotes the rounded number, unless that is too large for a float. -/
theorem toRat?_nearest {m : ℕ} {k : ℤ} (h : toNearest (m * 10 ^ k) < overflow) :
    toRat? (nearest false m k) = some (toNearest (m * 10 ^ k)) := by
  refine (rounds_nearest m k).toRat?_eq ?_
  rwa [abs_of_nonneg (toNearest_nonneg (decimal_nonneg m k))]

/-! ## One float for every number -/

/-- Canonical parts are determined by their number, zeros excepted. -/
theorem eq_of_rat? {f g : UnpackedFloat} {p : ℚ} (hf : Denotes f p) (hg : Denotes g p)
    (hp : p ≠ 0) : f = g := by
  obtain ⟨hfc, hfp⟩ := hf
  obtain ⟨hgc, hgp⟩ := hg
  obtain ⟨s, rfl, rfl⟩ | ⟨s, m, e, hm, rfl, hfeq⟩ := parts_of_rat? hfp
  · exact absurd rfl hp
  obtain ⟨t, rfl, rfl⟩ | ⟨t, n, d, hn, rfl, hgeq⟩ := parts_of_rat? hgp
  · exact absurd rfl hp
  have hmag : (m : ℚ) * 2 ^ e = n * 2 ^ d := by
    rw [← abs_apply hm, ← abs_apply hn, ← hfeq, ← hgeq]
  obtain ⟨hm53, he, hm52⟩ := hfc
  obtain ⟨hn53, hd, hn52⟩ := hgc
  have hcompare := compare_parts hm53 hn53 he hd hm52 hn52
  rw [compare_eq_iff_eq.2 hmag, Ordering.then_eq_eq, compare_eq_iff_eq, compare_eq_iff_eq]
    at hcompare
  obtain ⟨rfl, rfl⟩ := hcompare
  have hsign : s = t := by
    have heq := hfeq.symm.trans hgeq
    have hpos := positive_pos (e := e) hm
    have hneg := negative_neg (e := e) hm
    cases s <;> cases t <;> first | rfl | linarith
  rw [hsign]

theorem float_ext {x y : Float} (h : x.toModel.unpack = y.toModel.unpack) : x = y := by
  obtain ⟨⟨⟨b⟩, hb⟩⟩ := x
  obtain ⟨⟨⟨c⟩, hc⟩⟩ := y
  obtain rfl := (UnpackedFloat.unpack_inj_of_valid hb hc (by decide)).1 h
  rfl

theorem unpack_neg (x : Float) : (-x).toModel.unpack = x.toModel.unpack.neg := by
  have hcanonical : Canonical x.toModel.unpack.neg ∧ ExponentFits x.toModel.unpack.neg := by
    have hc := canonical_toModel x
    have he := exponentFits_toModel x
    cases hparts : x.toModel.unpack with
    | notANumber => exact ⟨trivial, trivial⟩
    | infinity s => exact ⟨trivial, trivial⟩
    | zero s => exact ⟨trivial, trivial⟩
    | finite s m e hm =>
      rw [hparts] at hc he
      exact ⟨hc, he⟩
  exact unpack_pack hcanonical.1 hcanonical.2

theorem toRat?_neg {x : Float} {p : ℚ} (h : toRat? x = some p) : toRat? (-x) = some (-p) := by
  rw [toRat?, unpack_neg]
  exact (denotes_neg (denotes_toModel h)).2

theorem Rounds.neg {x : Float} {p : ℚ} (h : Rounds x p) : Rounds (-x) (-p) := by
  rcases h with hrat | ⟨hlarge, s, hs⟩
  · exact .inl (toRat?_neg hrat)
  · exact .inr ⟨by rwa [abs_neg], -s, by rw [unpack_neg, hs]; rfl⟩

theorem Rounds.eq {x : Float} {p q : ℚ} (h : Rounds x p) (hx : toRat? x = some q) : p = q := by
  rcases h with hrat | ⟨-, s, hs⟩
  · exact Option.some.inj (hrat.symm.trans hx)
  · rw [toRat?, hs] at hx
    cases hx

/-- With a sign, the nearest float is that of the rounded number with the sign. -/
theorem rounds_nearest_signed (negative : Bool) (m : ℕ) (k : ℤ) :
    Rounds (nearest negative m k)
      (if negative then -toNearest (m * 10 ^ k) else toNearest (m * 10 ^ k)) := by
  cases negative with
  | false => exact rounds_nearest m k
  | true => exact (rounds_nearest m k).neg

/-- The float that is read is the one that denotes the rounded number. -/
theorem eq_nearest {x : Float} {negative : Bool} {m : Magnitude}
    (hx : FloatClass.of x = .finite negative m) (hm : 0 < m.mantissa) {d : ℕ} {k : ℤ}
    (h : toNearest (d * 10 ^ k) = m.toRat) : nearest negative d k = x := by
  have hpos : 0 < m.toRat := mul_pos (by exact_mod_cast hm) (zpow_two_pos _)
  have hdenotes : Denotes (nearest false d k).toModel.unpack m.toRat := by
    have := toRat?_nearest (m := d) (k := k) (h ▸ toRat_lt_overflow hx)
    rw [h] at this
    exact denotes_toModel this
  have hunsigned : (nearest false d k).toModel.unpack = m.parts false :=
    eq_of_rat? hdenotes ⟨canonical_parts hx false, rat?_parts m false⟩ hpos.ne'
  apply float_ext
  rw [unpack_of_class hx]
  cases negative with
  | false => exact hunsigned
  | true =>
    show (-nearest false d k).toModel.unpack = _
    rw [unpack_neg, hunsigned]
    unfold Magnitude.parts
    rw [dif_pos hm, dif_pos hm]
    rfl

theorem isNaN_neg (x : Float) : (-x).isNaN = x.isNaN := by
  show (-x).toModel.unpack.isNaN = x.toModel.unpack.isNaN
  rw [unpack_neg]
  cases x.toModel.unpack <;> rfl

theorem Rounds.isNaN {x : Float} {p : ℚ} (h : Rounds x p) : x.isNaN = false := by
  show x.toModel.unpack.isNaN = false
  rcases h with hrat | ⟨-, s, hs⟩
  · unfold toRat? at hrat
    obtain ⟨s, hs, -⟩ | ⟨s, m, e, hm, hs, -⟩ := parts_of_rat? hrat
    · rw [hs]
      rfl
    · rw [hs]
      rfl
  · rw [hs]
    rfl

/-- A decimal is never read as what is no number. -/
theorem isNaN_nearest (negative : Bool) (m : ℕ) (k : ℤ) :
    (nearest negative m k).isNaN = false := by
  have hnumber := (rounds_nearest m k).isNaN
  cases negative with
  | false => exact hnumber
  | true => exact (isNaN_neg _).trans hnumber

/-- A number that is not finite is one of the infinities. -/
theorem eq_infinity_of_not_finite {x : Float} (hnumber : x.isNaN = false)
    (h : ¬ x.isFinite = true) : x = infinity ∨ x = -infinity := by
  change x.toModel.unpack.isNaN = false at hnumber
  change ¬ x.toModel.unpack.isFinite = true at h
  cases hparts : x.toModel.unpack with
  | notANumber =>
    rw [hparts] at hnumber
    exact Bool.noConfusion hnumber
  | infinity s =>
    cases s with
    | positive => exact .inl (float_ext hparts)
    | negative => exact .inr (float_ext hparts)
  | zero s =>
    rw [hparts] at h
    exact absurd rfl h
  | finite s m e hm =>
    rw [hparts] at h
    exact absurd rfl h

/-- Zeros have their sign. -/
theorem nearest_zero {x : Float} {negative : Bool} {m : Magnitude}
    (hx : FloatClass.of x = .finite negative m) (hm : m.mantissa = 0) (k : ℤ) :
    nearest negative 0 k = x := by
  apply float_ext
  rw [unpack_of_class hx, Magnitude.parts, dif_neg (by omega)]
  have hzero : nearest negative 0 k = if negative then -0 else 0 := by
    simp only [nearest, true_or, if_true]
  rw [hzero]
  cases negative <;> rfl

end NeuralArch.Number
