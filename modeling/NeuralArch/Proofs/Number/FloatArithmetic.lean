import NeuralArch.Proofs.Number.FloatValue

/-!
# Float arithmetic is exact arithmetic, rounded

The operations on floats shift and count bits.  A mantissa with a round bit and a
sticky bit stands for any number between two integers that is rounded alike; this
is all that is lost on the way, so the number of a result is the exact result,
rounded once.

* `Represents` — what a mantissa with its two bits stands for.
* `denotes_roundWithAccuracy` — rounding parts is rounding their number.
* `denotes_add`, `denotes_sub`, `denotes_mul`, `denotes_div`, `toRat?_ofNat` — the
  operations.
* `unpack_pack_of_overflow` — what is too large is infinite.
* `toRat?_add_of_le` — sums of floats that are not negative, and not greater
  than others whose sum is finite.
-/

namespace NeuralArch.Number

open Float.Model (UnpackedFloat Format totalExponent)
open Float.Model.UnpackedFloat (Sign Accuracy ExtendedMantissa)

/-! ## Mantissas with two more bits -/

/-- The bits of a number before the point, the first one behind it, and whether there are
more. -/
def Represents (em : ExtendedMantissa) (x : ℚ) : Prop :=
  ⌊x⌋ = em.mantissa ∧ (em.roundBit = true ↔ 1 / 2 ≤ Int.fract x) ∧
    (em.stickyBit = true ↔ Int.fract x ≠ 0 ∧ Int.fract x ≠ 1 / 2)

/-- The two bits decide how to round. -/
theorem Represents.roundedMantissa {em : ExtendedMantissa} {x : ℚ} (h : Represents em x) :
    (em.roundedMantissa : ℤ) = roundEven x := by
  obtain ⟨m, r, s⟩ := em
  obtain ⟨hfloor, hround, hsticky⟩ := h
  dsimp only at hfloor hround hsticky
  unfold roundEven
  rw [hfloor]
  cases r with
  | false =>
    have hlt : Int.fract x < 1 / 2 := by
      by_contra hnot
      exact Bool.false_ne_true (hround.2 (not_lt.1 hnot))
    rw [if_pos hlt]
    cases s <;> rfl
  | true =>
    have hle : 1 / 2 ≤ Int.fract x := hround.1 rfl
    rw [if_neg (not_lt.2 hle)]
    cases s with
    | false =>
      have hhalf : Int.fract x = 1 / 2 := by
        by_contra hnot
        have hzero : Int.fract x ≠ 0 := by
          intro hzero
          rw [hzero] at hle
          norm_num at hle
        exact Bool.false_ne_true (hsticky.2 ⟨hzero, hnot⟩)
      rw [hhalf, if_neg (lt_irrefl _)]
      show ((m + m % 2 : ℕ) : ℤ) = _
      split <;> omega
    | true =>
      have hne : Int.fract x ≠ 1 / 2 := (hsticky.1 rfl).2
      rw [if_pos (lt_of_le_of_ne hle hne.symm)]
      rfl

theorem floor_half {x : ℚ} {m : ℕ} (h : ⌊x⌋ = m) : ⌊x / 2⌋ = (m / 2 : ℕ) := by
  have hlower : (m : ℚ) ≤ x := by
    rw [← Int.cast_natCast, ← h]
    exact Int.floor_le x
  have hupper : x < m + 1 := by
    rw [← Int.cast_natCast, ← h]
    exact Int.lt_floor_add_one x
  have hm : (m : ℚ) = 2 * (m / 2 : ℕ) + (m % 2 : ℕ) := by
    exact_mod_cast (Nat.div_add_mod m 2).symm
  have hbit : m % 2 = 0 ∨ m % 2 = 1 := by omega
  rw [Int.floor_eq_iff, Int.cast_natCast]
  rcases hbit with hb | hb <;> rw [hb] at hm <;> push_cast at hm <;> constructor <;> linarith

theorem fract_half {x : ℚ} {m : ℕ} (h : ⌊x⌋ = m) :
    Int.fract (x / 2) = ((m % 2 : ℕ) + Int.fract x) / 2 := by
  have hm : (m : ℚ) = 2 * (m / 2 : ℕ) + (m % 2 : ℕ) := by
    exact_mod_cast (Nat.div_add_mod m 2).symm
  rw [Int.fract, Int.fract, floor_half h, h, Int.cast_natCast, Int.cast_natCast]
  linarith

/-- The half of a number: its last bit becomes the round bit. -/
theorem Represents.shiftRightOne {em : ExtendedMantissa} {x : ℚ} (h : Represents em x) :
    Represents em.shiftRightOne (x / 2) := by
  obtain ⟨m, r, s⟩ := em
  obtain ⟨hfloor, hround, hsticky⟩ := h
  dsimp only at hfloor hround hsticky
  have hnonneg := Int.fract_nonneg x
  have hlt := Int.fract_lt_one x
  have hbit : m % 2 = 0 ∨ m % 2 = 1 := by omega
  refine ⟨floor_half hfloor, ?_, ?_⟩
  · show (m % 2 != 0) = true ↔ _
    rw [bne_iff_ne, fract_half hfloor]
    rcases hbit with hb | hb <;> rw [hb]
    · refine ⟨fun hne => absurd rfl hne, fun hle => ?_⟩
      push_cast at hle
      linarith
    · refine ⟨fun _ => ?_, fun _ => by decide⟩
      push_cast
      linarith
  · show (r || s) = true ↔ _
    rw [Bool.or_eq_true, hround, hsticky, fract_half hfloor]
    have hzero : (((m % 2 : ℕ) + Int.fract x) / 2 ≠ 0 ∧
        ((m % 2 : ℕ) + Int.fract x) / 2 ≠ 1 / 2) ↔ Int.fract x ≠ 0 := by
      rcases hbit with hb | hb <;> rw [hb] <;> push_cast <;> constructor
      · rintro ⟨h0, -⟩ heq
        exact h0 (by rw [heq]; norm_num)
      · intro hne
        exact ⟨fun heq => hne (by linarith), fun heq => by linarith⟩
      · rintro ⟨-, h1⟩ heq
        exact h1 (by rw [heq]; norm_num)
      · intro hne
        exact ⟨fun heq => by linarith, fun heq => hne (by linarith)⟩
    rw [hzero]
    constructor
    · rintro (hhalf | ⟨hne, -⟩)
      · intro heq
        rw [heq] at hhalf
        norm_num at hhalf
      · exact hne
    · intro hne
      by_cases hhalf : Int.fract x = 1 / 2
      · exact .inl hhalf.ge
      · exact .inr ⟨hne, hhalf⟩

theorem Represents.shiftRight {em : ExtendedMantissa} {x : ℚ} (h : Represents em x) (k : ℕ) :
    Represents (em >>> k) (x / 2 ^ k) := by
  show Represents (k.repeat ExtendedMantissa.shiftRightOne em) _
  induction k with
  | zero => simpa [Nat.repeat] using h
  | succ k ih =>
    rw [Nat.repeat, pow_succ, ← div_div]
    exact ih.shiftRightOne

theorem represents_exact (m : ℕ) :
    Represents (ExtendedMantissa.ofMantissaAndAccuracy m .exact) m := by
  refine ⟨by simp [ExtendedMantissa.ofMantissaAndAccuracy], ?_, ?_⟩
  · simp only [ExtendedMantissa.ofMantissaAndAccuracy, Int.fract_natCast]
    norm_num
  · simp only [ExtendedMantissa.ofMantissaAndAccuracy, Int.fract_natCast]
    norm_num

/-! ## Units -/

theorem targetExponent_binary64 (t : ℤ) :
    Format.binary64.targetExponent t = max (t - 53) leastExponent := rfl

theorem totalExponent_le {m : ℕ} {k : ℕ} (h : m < 2 ^ k) (hk : 0 < k) (e : ℤ) :
    totalExponent m e ≤ k + e := by
  have hlog : m.log2 < k := by
    rcases Nat.eq_zero_or_pos m with rfl | hpos
    · simpa using hk
    · exact (Nat.log2_lt hpos.ne').2 h
  unfold totalExponent
  omega

theorem le_log_mul_zpow {x : ℚ} {a : ℤ} (h : (2 : ℚ) ^ a ≤ x) (e : ℤ) :
    a + e ≤ Int.log 2 (x * 2 ^ e) := by
  have hx : 0 < x := lt_of_lt_of_le (zpow_two_pos a) h
  rw [← Int.zpow_le_iff_le_log (by norm_num) (mul_pos hx (zpow_two_pos e)), Nat.cast_ofNat,
    zpow_add₀ (by norm_num)]
  exact mul_le_mul_of_nonneg_right h (zpow_two_pos e).le

theorem log_mul_zpow_lt {x : ℚ} {a : ℤ} (hx : 0 < x) (h : x < (2 : ℚ) ^ a) (e : ℤ) :
    Int.log 2 (x * 2 ^ e) < a + e := by
  rw [← Int.lt_zpow_iff_log_lt (by norm_num) (mul_pos hx (zpow_two_pos e)), Nat.cast_ofNat,
    zpow_add₀ (by norm_num)]
  exact mul_lt_mul_of_pos_right h (zpow_two_pos e)

/-- The digits before the point decide the unit, if there are any. -/
theorem targetExponent_totalExponent {m : ℕ} {e : ℤ} {x : ℚ} (hfloor : ⌊x⌋ = m) (hx : 0 < x)
    (hm : 0 < m ∨ e ≤ leastExponent) :
    Format.binary64.targetExponent (totalExponent m e) = unitExponent (x * 2 ^ e) := by
  rw [targetExponent_binary64, totalExponent, unitExponent]
  have hlt : x < m + 1 := by
    have := Int.lt_floor_add_one x
    rwa [hfloor, Int.cast_natCast] at this
  have hle : (m : ℚ) ≤ x := by
    have := Int.floor_le x
    rwa [hfloor, Int.cast_natCast] at this
  rcases Nat.eq_zero_or_pos m with rfl | hpos
  · have hsmall : e ≤ leastExponent := hm.resolve_left (lt_irrefl 0)
    have hone : x < 2 ^ (0 : ℤ) := by simpa using hlt
    have hlog := log_mul_zpow_lt hx hone e
    rw [Nat.log2_zero]
    omega
  · have hlower : (2 : ℚ) ^ (m.log2 : ℤ) ≤ x := by
      have : 2 ^ m.log2 ≤ m := Nat.log2_self_le hpos.ne'
      exact le_trans (by exact_mod_cast this) hle
    have hupper : x < 2 ^ ((m.log2 : ℤ) + 1) := by
      have : m + 1 ≤ 2 ^ (m.log2 + 1) := Nat.lt_log2_self
      exact lt_of_lt_of_le hlt (by exact_mod_cast this)
    have hlog : Int.log 2 (x * 2 ^ e) = m.log2 + e := by
      have hle := le_log_mul_zpow hlower e
      have hlt := log_mul_zpow_lt hx hupper e
      omega
    rw [hlog]
    congr 1
    omega

/-! ## Rounding parts -/

/-- Parts in canonical form, and their number. -/
def Denotes (f : UnpackedFloat) (p : ℚ) : Prop := Canonical f ∧ rat? f = some p

theorem denotes_toModel {x : Float} {p : ℚ} (h : toRat? x = some p) :
    Denotes x.toModel.unpack p :=
  ⟨canonical_toModel x, h⟩

/-- The sign of a sign, as a factor. -/
def factor (s : Sign) : ℚ := s.apply 1

@[simp] theorem factor_positive : factor .positive = 1 := by simp [factor, Sign.apply]

@[simp] theorem factor_negative : factor .negative = -1 := by simp [factor, Sign.apply]

theorem factor_mul (s t : Sign) : factor (s * t) = factor s * factor t := by
  cases s <;> cases t <;> simp <;> rfl

theorem factor_div (s t : Sign) : factor (s / t) = factor s / factor t := by
  cases s <;> cases t <;> simp <;> rfl

theorem cast_apply (s : Sign) (n : ℤ) : (s.apply n : ℚ) = factor s * n := by
  cases s <;> simp [Sign.apply]

theorem abs_apply {s : Sign} {m : ℕ} {e : ℤ} (hm : 0 < m) :
    |(s.apply m : ℚ) * 2 ^ e| = m * 2 ^ e := by
  rw [cast_apply, Int.cast_natCast, mul_assoc, abs_mul, abs_of_pos (finite_pos hm)]
  cases s <;> simp

theorem roundRat_factor_mul (s : Sign) {x : ℚ} (h : 0 ≤ x) :
    roundRat (factor s * x) = factor s * toNearest x := by
  cases s with
  | negative => simp [roundRat_neg, roundRat_of_nonneg h]
  | positive => simp [roundRat_of_nonneg h]

/-- Shifting a mantissa of at most 53 digits only makes room for one that was rounded up to the
next power of two. -/
theorem denotes_shifted {s : Sign} {r : ℕ} {t : ℤ} (hr : r ≤ 2 ^ 53) (ht : leastExponent ≤ t)
    (hfull : 2 ^ 52 ≤ r ∨ t = leastExponent) :
    Denotes
      (let (em, e) := UnpackedFloat.shiftToTargetExponent Format.binary64 r t .exact
       if h : em.mantissa = 0 then .zero s
       else .finite s em.mantissa e (Nat.pos_of_ne_zero h))
      (factor s * (r * 2 ^ t)) := by
  rw [UnpackedFloat.shiftToTargetExponent, targetExponent_binary64]
  rcases hr.lt_or_eq with hlt | rfl
  · -- The exponent is already the right one.
    have htotal := totalExponent_le hlt (by norm_num) t
    have hshift : (max (totalExponent r t - 53) leastExponent - t).toNat = 0 := by
      push_cast at htotal
      omega
    simp only [UnpackedFloat.shiftToExponent, hshift, Nat.cast_zero, add_zero]
    by_cases h : r = 0
    · subst h
      exact ⟨trivial, by simp [rat?]; rfl⟩
    · have hne : ¬ (ExtendedMantissa.ofMantissaAndAccuracy r .exact >>> 0).mantissa = 0 := h
      rw [dif_neg hne]
      refine ⟨⟨hlt, ht, hfull⟩, ?_⟩
      show some ((s.apply (r : ℕ) : ℚ) * 2 ^ t) = _
      rw [cast_apply, Int.cast_natCast, mul_assoc]
  · -- One digit is dropped; it is a zero.
    have htotal : totalExponent (2 ^ 53) t = 54 + t := by
      rw [totalExponent, Nat.log2_two_pow]
      norm_num
    have hshift : (max (totalExponent (2 ^ 53) t - 53) leastExponent - t).toNat = 1 := by
      omega
    simp only [UnpackedFloat.shiftToExponent, hshift]
    have hmant : (ExtendedMantissa.ofMantissaAndAccuracy (2 ^ 53) .exact >>> 1).mantissa =
        2 ^ 52 := rfl
    have hne : ¬ (ExtendedMantissa.ofMantissaAndAccuracy (2 ^ 53) .exact >>> 1).mantissa = 0 := by
      rw [hmant]
      norm_num
    rw [dif_neg hne]
    refine ⟨⟨by rw [hmant]; norm_num, by push_cast; omega, .inl hmant.ge⟩, ?_⟩
    show some ((s.apply (2 ^ 52 : ℕ) : ℚ) * 2 ^ (t + (1 : ℕ))) = _
    rw [cast_apply, Nat.cast_one, zpow_add₀ (by norm_num)]
    push_cast
    congr 1
    ring

/-- Rounding parts is rounding their number. -/
theorem denotes_roundWithAccuracy {s : Sign} {m : ℕ} {e : ℤ} {acc : Accuracy} {x : ℚ}
    (h : Represents (ExtendedMantissa.ofMantissaAndAccuracy m acc) x) (hx : 0 < x)
    (hm : 0 < m ∨ e ≤ leastExponent) (he : e ≤ unitExponent (x * 2 ^ e)) :
    Denotes (UnpackedFloat.roundWithAccuracy Format.binary64 s m e acc)
      (roundRat (factor s * (x * 2 ^ e))) := by
  have hX : 0 < x * 2 ^ e := mul_pos hx (zpow_two_pos e)
  have hfloor : ⌊x⌋ = m := by
    rw [h.1]
    cases acc with
    | exact => rfl
    | inexact o => cases o <;> rfl
  rw [roundRat_factor_mul s hX.le, UnpackedFloat.roundWithAccuracy]
  have htarget := targetExponent_totalExponent hfloor hx hm
  rw [UnpackedFloat.shiftToTargetExponent, htarget, UnpackedFloat.shiftToExponent]
  set t := unitExponent (x * 2 ^ e) with ht
  have hexp : e + ((t - e).toNat : ℤ) = t := by omega
  have hscaled : x / 2 ^ (t - e).toNat = x * 2 ^ e / unit (x * 2 ^ e) := by
    rw [unit, ← ht, ← zpow_natCast, Int.toNat_of_nonneg (by omega), zpow_sub₀ (by norm_num)]
    field_simp
  have hrounded := (h.shiftRight (t - e).toNat).roundedMantissa
  rw [hscaled] at hrounded
  simp only [hexp]
  have hr : (ExtendedMantissa.roundedMantissa
      (ExtendedMantissa.ofMantissaAndAccuracy m acc >>> (t - e).toNat)) ≤ 2 ^ 53 := by
    have : roundEven (x * 2 ^ e / unit (x * 2 ^ e)) ≤ 2 ^ 53 :=
      roundEven_le (by push_cast; exact (div_unit_lt _).le)
    omega
  have hfull : 2 ^ 52 ≤ (ExtendedMantissa.roundedMantissa
      (ExtendedMantissa.ofMantissaAndAccuracy m acc >>> (t - e).toNat)) ∨ t = leastExponent := by
    rcases (le_max_right _ _ : leastExponent ≤ t).eq_or_lt with heq | hlt
    · exact .inr heq.symm
    · have : 2 ^ 52 ≤ roundEven (x * 2 ^ e / unit (x * 2 ^ e)) :=
        le_roundEven (by push_cast; exact le_div_unit hX hlt)
      left
      omega
  have hvalue : factor s * toNearest (x * 2 ^ e) =
      factor s * ((ExtendedMantissa.roundedMantissa
        (ExtendedMantissa.ofMantissaAndAccuracy m acc >>> (t - e).toNat) : ℕ) * 2 ^ t) := by
    rw [toNearest, ← hrounded, Int.cast_natCast]
    rfl
  rw [hvalue]
  exact denotes_shifted hr (le_max_right _ _) hfull

theorem denotes_zero (s : Sign) : Denotes (.zero s) 0 := ⟨trivial, rfl⟩

@[simp] theorem roundRat_zero : roundRat 0 = 0 := by simp [roundRat]

/-- Parts are rounded, whatever their exponent. -/
theorem denotes_round {s : Sign} {m : ℕ} (hm : 0 < m) (e : ℤ) :
    Denotes (UnpackedFloat.round Format.binary64 s m e)
      (roundRat (factor s * (m * 2 ^ e))) := by
  have hmq : (0 : ℚ) < m := by exact_mod_cast hm
  have htarget := targetExponent_totalExponent (Int.floor_natCast m) hmq (.inl hm) (e := e)
  rw [UnpackedFloat.round, htarget, UnpackedFloat.decreaseExponent, Nat.shiftLeft_eq]
  set t := unitExponent (m * 2 ^ e) with ht
  set k := (e - t).toNat with hk
  have hvalue : ((m * 2 ^ k : ℕ) : ℚ) * 2 ^ (e - k : ℤ) = m * 2 ^ e := by
    push_cast
    rw [mul_assoc, ← zpow_natCast, ← zpow_add₀ (by norm_num), add_sub_cancel]
  have hpos : 0 < m * 2 ^ k := Nat.mul_pos hm (by positivity)
  rw [← hvalue]
  refine denotes_roundWithAccuracy (represents_exact _) (by exact_mod_cast hpos) (.inl hpos) ?_
  rw [hvalue]
  omega

theorem denotes_normalize (n : ℤ) (e : ℤ) (s : Sign) :
    Denotes (UnpackedFloat.normalize Format.binary64 n e s) (roundRat (n * 2 ^ e)) := by
  unfold UnpackedFloat.normalize
  rcases lt_trichotomy n 0 with h | rfl | h
  · rw [compare_lt_iff_lt.2 h]
    have hround := denotes_round (s := .negative) (m := (-n).toNat) (by omega) e
    have hcast : (((-n).toNat : ℕ) : ℚ) = -n := by
      rw [← Int.cast_natCast, Int.toNat_of_nonneg (by omega), Int.cast_neg]
    rwa [hcast, factor_negative, neg_one_mul, neg_mul, neg_neg] at hround
  · rw [compare_eq_iff_eq.2 rfl, Int.cast_zero, zero_mul, roundRat_zero]
    exact denotes_zero s
  · rw [compare_gt_iff_gt.2 h]
    have hround := denotes_round (s := .positive) (m := n.toNat) (by omega) e
    have hcast : ((n.toNat : ℕ) : ℚ) = n := by
      rw [← Int.cast_natCast, Int.toNat_of_nonneg (by omega)]
    rwa [hcast, factor_positive, one_mul] at hround

/-! ## Operations on parts -/

/-- A number of parts in canonical form is not changed. -/
theorem Denotes.roundRat_eq {f : UnpackedFloat} {p : ℚ} (h : Denotes f p) : roundRat p = p := by
  obtain ⟨hc, hp⟩ := h
  obtain ⟨s, rfl, rfl⟩ | ⟨s, m, e, hpos, rfl, rfl⟩ := parts_of_rat? hp
  · exact roundRat_zero
  · obtain ⟨hm, he, -⟩ := hc
    have hnonneg : (0 : ℚ) ≤ m * 2 ^ e := mul_nonneg (Nat.cast_nonneg m) (zpow_two_pos e).le
    rw [cast_apply, Int.cast_natCast, mul_assoc, roundRat_factor_mul _ hnonneg,
      toNearest_of_dyadic hm he]

/-- A factor with all its digits gives a product enough of them. -/
theorem le_mul_of_digits {m n : ℕ} {e d : ℤ} (hm : 0 < m) (hn : 0 < n)
    (hm52 : 2 ^ 52 ≤ m ∨ e = leastExponent) (hn52 : 2 ^ 52 ≤ n ∨ d = leastExponent)
    (h : leastExponent < e + d) : 2 ^ 52 ≤ m * n := by
  rcases hm52 with hfull | he
  · exact hfull.trans (Nat.le_mul_of_pos_right m hn)
  · rcases hn52 with hfull | hd
    · exact hfull.trans (Nat.le_mul_of_pos_left n hm)
    · rw [he, hd, leastExponent] at h
      omega

/-- A product is rounded once, if its mantissa has enough digits. -/
theorem denotes_mul_finite {s t : Sign} {m n : ℕ} {e d : ℤ} (hm : 0 < m) (hn : 0 < n)
    (h : e + d ≤ unitExponent ((m * n : ℕ) * 2 ^ (e + d))) :
    Denotes (UnpackedFloat.mul Format.binary64 (.finite s m e hm) (.finite t n d hn))
      (roundRat (s.apply m * 2 ^ e * (t.apply n * 2 ^ d))) := by
  have hpos : 0 < m * n := Nat.mul_pos hm hn
  have hposq : (0 : ℚ) < (m * n : ℕ) := by exact_mod_cast hpos
  have hvalue : (s.apply m : ℚ) * 2 ^ e * (t.apply n * 2 ^ d) =
      factor (s * t) * ((m * n : ℕ) * 2 ^ (e + d)) := by
    rw [cast_apply, cast_apply, factor_mul, zpow_add₀ (by norm_num)]
    push_cast
    ring
  rw [hvalue]
  exact denotes_roundWithAccuracy (represents_exact _) hposq (.inl hpos) h

theorem denotes_mul {f g : UnpackedFloat} {p q : ℚ} (hf : Denotes f p) (hg : Denotes g q) :
    Denotes (UnpackedFloat.mul Format.binary64 f g) (roundRat (p * q)) := by
  obtain ⟨s, rfl, rfl⟩ | ⟨s, m, e, hm, rfl, rfl⟩ := parts_of_rat? hf.2
  · rw [zero_mul, roundRat_zero]
    obtain ⟨t, rfl, rfl⟩ | ⟨t, n, d, hn, rfl, rfl⟩ := parts_of_rat? hg.2
    · exact denotes_zero _
    · exact denotes_zero _
  obtain ⟨t, rfl, rfl⟩ | ⟨t, n, d, hn, rfl, rfl⟩ := parts_of_rat? hg.2
  · rw [mul_zero, roundRat_zero]
    exact denotes_zero _
  refine denotes_mul_finite hm hn ?_
  by_cases hleast : e + d ≤ leastExponent
  · exact hleast.trans (le_max_right _ _)
  · have h52 : 2 ^ 52 ≤ m * n :=
      le_mul_of_digits hm hn hf.1.2.2 hg.1.2.2 (not_le.1 hleast)
    have hlog : 52 + (e + d) ≤ Int.log 2 (((m * n : ℕ) : ℚ) * 2 ^ (e + d)) :=
      le_log_mul_zpow (by exact_mod_cast h52) (e + d)
    have hunit : Int.log 2 (((m * n : ℕ) : ℚ) * 2 ^ (e + d)) - 52 ≤
        unitExponent ((m * n : ℕ) * 2 ^ (e + d)) := le_max_left _ _
    omega

theorem denotes_add {f g : UnpackedFloat} {p q : ℚ} (hf : Denotes f p) (hg : Denotes g q) :
    Denotes (UnpackedFloat.add Format.binary64 f g) (roundRat (p + q)) := by
  obtain ⟨s, rfl, rfl⟩ | ⟨s, m, e, hm, rfl, rfl⟩ := parts_of_rat? hf.2
  · obtain ⟨t, rfl, rfl⟩ | ⟨t, n, d, hn, rfl, rfl⟩ := parts_of_rat? hg.2
    · rw [add_zero, roundRat_zero, UnpackedFloat.add]
      split <;> exact denotes_zero _
    · rw [zero_add, hg.roundRat_eq]
      exact hg
  obtain ⟨t, rfl, rfl⟩ | ⟨t, n, d, hn, rfl, rfl⟩ := parts_of_rat? hg.2
  · rw [add_zero, hf.roundRat_eq]
    exact hf
  simp only [UnpackedFloat.add, UnpackedFloat.decreaseExponent, Nat.shiftLeft_eq]
  have hscale : ∀ k : ℤ, min e d ≤ k →
      (2 : ℚ) ^ (k - min e d).toNat * 2 ^ min e d = 2 ^ k := by
    intro k hk
    rw [← zpow_natCast, ← zpow_add₀ (by norm_num), Int.toNat_of_nonneg (by omega),
      sub_add_cancel]
  have hvalue : (s.apply m : ℚ) * 2 ^ e + t.apply n * 2 ^ d =
      ((s.apply (m * 2 ^ (e - min e d).toNat : ℕ) +
        t.apply (n * 2 ^ (d - min e d).toNat : ℕ) : ℤ) : ℚ) * 2 ^ min e d := by
    rw [Int.cast_add, cast_apply, cast_apply, cast_apply, cast_apply, add_mul]
    push_cast
    rw [← hscale e (min_le_left e d), ← hscale d (min_le_right e d)]
    ring
  rw [hvalue]
  exact denotes_normalize _ _ _

theorem apply_neg (s : Sign) (n : ℤ) : (-s).apply n = -s.apply n := by
  cases s with
  | negative => exact (neg_neg n).symm
  | positive => rfl

theorem denotes_neg {f : UnpackedFloat} {p : ℚ} (h : Denotes f p) : Denotes f.neg (-p) := by
  obtain ⟨s, rfl, rfl⟩ | ⟨s, m, e, hm, rfl, rfl⟩ := parts_of_rat? h.2
  · exact ⟨trivial, by rw [neg_zero]; rfl⟩
  · refine ⟨h.1, congrArg some ?_⟩
    rw [apply_neg, Int.cast_neg, neg_mul]

/-- A difference is the sum with the opposite number. -/
theorem parts_sub (f g : UnpackedFloat) :
    UnpackedFloat.sub Format.binary64 f g = UnpackedFloat.add Format.binary64 f g.neg := by
  cases f with
  | notANumber => cases g <;> rfl
  | infinity s => cases g <;> rfl
  | zero s => cases g <;> rfl
  | finite s m e hm =>
    cases g with
    | finite t n d hn =>
      simp only [UnpackedFloat.sub, UnpackedFloat.neg, UnpackedFloat.add, apply_neg,
        Int.sub_eq_add_neg]
    | notANumber | infinity | zero => rfl

theorem denotes_sub {f g : UnpackedFloat} {p q : ℚ} (hf : Denotes f p) (hg : Denotes g q) :
    Denotes (UnpackedFloat.sub Format.binary64 f g) (roundRat (p - q)) := by
  rw [parts_sub, sub_eq_add_neg]
  exact denotes_add hf (denotes_neg hg)

/-- The remainder of a division says what the quotient's two bits are. -/
theorem represents_fraction (num : ℕ) {den : ℕ} (h : 0 < den) :
    Represents (ExtendedMantissa.ofMantissaAndAccuracy (num / den)
      (UnpackedFloat.accuracyOfFraction (num % den) den)) (num / den) := by
  have hden : (0 : ℚ) < den := by exact_mod_cast h
  have hlt := fract_natCast_div_lt_half num h
  have hgt := half_lt_fract_natCast_div num h
  have hzero : Int.fract (num / den : ℚ) = 0 ↔ num % den = 0 := by
    rw [fract_natCast_div num h, div_eq_zero_iff, or_iff_left hden.ne', Nat.cast_eq_zero]
  unfold UnpackedFloat.accuracyOfFraction
  by_cases h0 : num % den = 0
  · have hfract := hzero.2 h0
    rw [if_pos h0]
    refine ⟨floor_natCast_div num den, ?_, ?_⟩
    · rw [hfract]
      norm_num [ExtendedMantissa.ofMantissaAndAccuracy]
    · rw [hfract]
      norm_num [ExtendedMantissa.ofMantissaAndAccuracy]
  · have hfract : Int.fract (num / den : ℚ) ≠ 0 := fun hf => h0 (hzero.1 hf)
    rw [if_neg h0]
    rcases lt_trichotomy (2 * (num % den)) den with ho | ho | ho
    · rw [compare_lt_iff_lt.2 ho]
      have hhalf := hlt.2 ho
      exact ⟨floor_natCast_div num den,
        iff_of_false Bool.false_ne_true (not_le.2 hhalf), iff_of_true rfl ⟨hfract, hhalf.ne⟩⟩
    · rw [compare_eq_iff_eq.2 ho]
      have hle := not_lt.1 (fun hf => absurd (hlt.1 hf) (by omega))
      have hge := not_lt.1 (fun hf => absurd (hgt.1 hf) (by omega))
      exact ⟨floor_natCast_div num den, iff_of_true rfl hle,
        iff_of_false Bool.false_ne_true fun hne => hne.2 (le_antisymm hge hle)⟩
    · rw [compare_gt_iff_gt.2 ho]
      have hhalf := hgt.2 ho
      exact ⟨floor_natCast_div num den, iff_of_true rfl hhalf.le,
        iff_of_true rfl ⟨hfract, hhalf.ne'⟩⟩

/-- A quotient is not far below that of the leading digits. -/
theorem zpow_log2_le_div {m n : ℕ} (hm : 0 < m) (hn : 0 < n) :
    (2 : ℚ) ^ ((m.log2 : ℤ) - n.log2 - 1) ≤ m / n := by
  have hlogm : (2 : ℚ) ^ (m.log2 : ℤ) ≤ m := by exact_mod_cast Nat.log2_self_le hm.ne'
  have hlogn : (n : ℚ) ≤ 2 ^ ((n.log2 : ℤ) + 1) := by
    exact_mod_cast (Nat.lt_log2_self : n < 2 ^ (n.log2 + 1)).le
  rw [le_div_iff₀ (by exact_mod_cast hn)]
  calc (2 : ℚ) ^ ((m.log2 : ℤ) - n.log2 - 1) * n
      ≤ 2 ^ ((m.log2 : ℤ) - n.log2 - 1) * 2 ^ ((n.log2 : ℤ) + 1) :=
        mul_le_mul_of_nonneg_left hlogn (zpow_two_pos _).le
    _ = 2 ^ (m.log2 : ℤ) := by
        rw [← zpow_add₀ (by norm_num)]
        congr 1
        ring
    _ ≤ m := hlogm

/-- Shifted by enough digits, a mantissa is not below another. -/
theorem div_shifted_pos {m n k : ℕ} (hm : 0 < m) (hn : 0 < n) (h : n.log2 + 1 ≤ m.log2 + k) :
    0 < m * 2 ^ k / n := by
  apply Nat.div_pos _ hn
  calc n ≤ 2 ^ (n.log2 + 1) := Nat.lt_log2_self.le
    _ ≤ 2 ^ (m.log2 + k) := Nat.pow_le_pow_right (by norm_num) h
    _ = 2 ^ m.log2 * 2 ^ k := pow_add _ _ _
    _ ≤ m * 2 ^ k := Nat.mul_le_mul_right _ (Nat.log2_self_le hm.ne')

/-- A quotient is computed to enough digits, whatever form the parts are in. -/
theorem denotes_div {f g : UnpackedFloat} {p q : ℚ} (hf : rat? f = some p) (hg : rat? g = some q)
    (hne : q ≠ 0) : Denotes (UnpackedFloat.div Format.binary64 f g) (roundRat (p / q)) := by
  obtain ⟨t, rfl, rfl⟩ | ⟨t, n, d, hn, rfl, rfl⟩ := parts_of_rat? hg
  · exact absurd rfl hne
  obtain ⟨s, rfl, rfl⟩ | ⟨s, m, e, hm, rfl, rfl⟩ := parts_of_rat? hf
  · rw [zero_div, roundRat_zero]
    exact denotes_zero _
  simp only [UnpackedFloat.div, UnpackedFloat.divCore, targetExponent_binary64,
    Nat.shiftLeft_eq]
  set u := min (e - d) (max (totalExponent m e - totalExponent n d - 53) leastExponent) with hu
  set k := (e - d - u).toNat with hk
  have hexp : (2 : ℚ) ^ k * 2 ^ u = 2 ^ (e - d) := by
    rw [← zpow_natCast, ← zpow_add₀ (by norm_num)]
    congr 1
    omega
  have hshifted : ((m * 2 ^ k : ℕ) : ℚ) / n * 2 ^ u = m / n * 2 ^ (e - d) := by
    push_cast
    rw [← hexp]
    ring
  have hvalue : (s.apply m : ℚ) * 2 ^ e / (t.apply n * 2 ^ d) =
      factor (s / t) * ((m * 2 ^ k : ℕ) / n * 2 ^ u) := by
    rw [cast_apply, cast_apply, factor_div, hshifted, zpow_sub₀ (by norm_num), Int.cast_natCast,
      Int.cast_natCast]
    field_simp
  rw [hvalue]
  refine denotes_roundWithAccuracy (represents_fraction _ hn) (by positivity) ?_ ?_
  · -- Where the exponent is not the least one, the shift leaves enough digits.
    by_cases hleast : u ≤ leastExponent
    · exact .inr hleast
    · left
      apply div_shifted_pos hm hn
      unfold totalExponent at hu
      omega
  · have hlog : (m.log2 : ℤ) - n.log2 - 1 + (e - d) ≤
        Int.log 2 (((m * 2 ^ k : ℕ) : ℚ) / n * 2 ^ u) := by
      rw [hshifted]
      exact le_log_mul_zpow (zpow_log2_le_div hm hn) (e - d)
    have hunit : Int.log 2 (((m * 2 ^ k : ℕ) : ℚ) / n * 2 ^ u) - 52 ≤
        unitExponent ((m * 2 ^ k : ℕ) / n * 2 ^ u) := le_max_left _ _
    have hleast : leastExponent ≤ unitExponent (((m * 2 ^ k : ℕ) : ℚ) / n * 2 ^ u) :=
      le_max_right _ _
    unfold totalExponent at hu
    omega

/-! ## Operations on floats -/

/-- What is too large for a float. -/
def overflow : ℚ := 2 ^ (1024 : ℤ)

theorem exponentFits_of_denotes {f : UnpackedFloat} {p : ℚ} (h : Denotes f p)
    (hp : |p| < overflow) : ExponentFits f := by
  obtain ⟨s, rfl, rfl⟩ | ⟨s, m, e, hm, rfl, rfl⟩ := parts_of_rat? h.2
  · trivial
  · obtain ⟨-, -, hm52⟩ := h.1
    by_contra hnot
    have hlarge : greatestExponent < e := not_le.1 hnot
    rw [greatestExponent] at hlarge
    have h52 : 2 ^ 52 ≤ m := hm52.resolve_right (by rw [leastExponent]; omega)
    rw [abs_apply hm] at hp
    have : overflow ≤ m * 2 ^ e := by
      calc overflow = 2 ^ (52 : ℤ) * 2 ^ (972 : ℤ) := by
            rw [overflow, ← zpow_add₀ (by norm_num)]
            rfl
        _ = 2 ^ 52 * 2 ^ (972 : ℤ) := by
            rw [show ((52 : ℤ)) = ((52 : ℕ) : ℤ) from rfl, zpow_natCast]
        _ ≤ m * 2 ^ e :=
            mul_le_mul (by exact_mod_cast h52) (zpow_le_zpow_right₀ (by norm_num) (by omega))
              (zpow_two_pos _).le (Nat.cast_nonneg m)
    exact absurd hp (not_lt.2 this)

theorem toRat?_pack {f : UnpackedFloat} {p : ℚ} (h : Denotes f p) (hp : |p| < overflow) :
    toRat? (.ofModel (Float.Model.pack f)) = some p := by
  show rat? (Float.Model.pack f).unpack = some p
  rw [unpack_pack h.1 (exponentFits_of_denotes h hp)]
  exact h.2

/-- The float of a rounded number: it denotes the number, or is an infinity if that is too
large. -/
def Rounds (x : Float) (p : ℚ) : Prop :=
  toRat? x = some p ∨ overflow ≤ |p| ∧ ∃ s, x.toModel.unpack = .infinity s

theorem Rounds.toRat?_eq {x : Float} {p : ℚ} (h : Rounds x p) (hp : |p| < overflow) :
    toRat? x = some p :=
  h.resolve_right fun hlarge => absurd hp (not_lt.2 hlarge.1)

theorem rounds_pack {f : UnpackedFloat} {p : ℚ} (h : Denotes f p) :
    Rounds (.ofModel (Float.Model.pack f)) p := by
  by_cases hp : |p| < overflow
  · exact .inl (toRat?_pack h hp)
  by_cases he : ExponentFits f
  · left
    show rat? (Float.Model.pack f).unpack = some p
    rw [unpack_pack h.1 he]
    exact h.2
  · obtain ⟨s, rfl, -⟩ | ⟨s, m, e, hm, rfl, -⟩ := parts_of_rat? h.2
    · exact absurd trivial he
    · exact .inr ⟨not_lt.1 hp, s, unpack_pack_of_large (not_le.1 he)⟩

theorem toRat?_mul {x y : Float} {p q : ℚ} (hx : toRat? x = some p) (hy : toRat? y = some q)
    (h : |roundRat (p * q)| < overflow) : toRat? (x * y) = some (roundRat (p * q)) :=
  toRat?_pack (denotes_mul (denotes_toModel hx) (denotes_toModel hy)) h

theorem roundRat_natCast {n : ℕ} (h : n < 2 ^ 53) : roundRat n = n := by
  have hn := toNearest_of_dyadic (e := 0) h (by decide)
  rw [zpow_zero, mul_one] at hn
  rw [roundRat_of_nonneg (Nat.cast_nonneg n), hn]

theorem natCast_lt_overflow {n : ℕ} (h : n < 2 ^ 53) : |(n : ℚ)| < overflow := by
  have hle : (2 : ℚ) ^ (53 : ℤ) ≤ overflow :=
    zpow_le_zpow_right₀ (by norm_num) (by norm_num)
  rw [abs_of_nonneg (Nat.cast_nonneg n)]
  refine lt_of_lt_of_le ?_ hle
  exact_mod_cast h

/-- Naturals of at most 53 digits are floats. -/
theorem toRat?_toFloat {n : ℕ} (h : n < 2 ^ 53) : toRat? n.toUInt64.toFloat = some (n : ℚ) := by
  have hn := denotes_normalize n 0 .positive
  rw [zpow_zero, mul_one, Int.cast_natCast, roundRat_natCast h] at hn
  have hword : n.toUInt64.toNat = n := by
    rw [Nat.toUInt64, UInt64.toNat_ofNat', Nat.mod_eq_of_lt (h.trans (by norm_num))]
  refine toRat?_pack ?_ (natCast_lt_overflow h)
  show Denotes (UnpackedFloat.normalize _ (n.toUInt64.toNat : ℕ) _ _) _
  rw [hword]
  exact hn

theorem toRat?_ofNat {n : ℕ} (h : n < 2 ^ 53) : toRat? (Float.ofNat n) = some (n : ℚ) := by
  have hone : toRat? (Float.ofBits 0x3FF0000000000000) = some 1 := by
    show some (((2 ^ 52 : ℕ) : ℤ) * (2 : ℚ) ^ (-52 : ℤ)) = _
    norm_num
  have hmul : Float.ofNat n = n.toUInt64.toFloat * Float.ofBits 0x3FF0000000000000 := by
    show Float.ofScientific n false 0 = _
    rw [Float.ofScientific, dif_pos ⟨h, by decide⟩, if_neg Bool.false_ne_true]
    rfl
  have hproduct := toRat?_mul (toRat?_toFloat h) hone
  rw [mul_one, roundRat_natCast h] at hproduct
  rw [hmul]
  exact hproduct (natCast_lt_overflow h)

/-! ## Results below others -/

theorem exists_toRat?_iff {x : Float} : (∃ p, toRat? x = some p) ↔ x.isFinite = true := by
  show (∃ p, rat? x.toModel.unpack = some p) ↔ x.toModel.unpack.isFinite = true
  cases x.toModel.unpack <;> simp [rat?, UnpackedFloat.isFinite]

theorem abs_lt_overflow {x : Float} {p : ℚ} (h : toRat? x = some p) : |p| < overflow := by
  have hc := canonical_toModel x
  have hf := exponentFits_toModel x
  unfold toRat? at h
  generalize x.toModel.unpack = f at h hc hf
  obtain ⟨s, rfl, rfl⟩ | ⟨s, m, e, hm, rfl, rfl⟩ := parts_of_rat? h
  · rw [abs_zero]
    exact zpow_two_pos _
  · obtain ⟨hm53, -, -⟩ := hc
    have hle : e ≤ 971 := hf
    rw [abs_apply hm]
    calc (m : ℚ) * 2 ^ e < 2 ^ (53 : ℤ) * 2 ^ e :=
          mul_lt_mul_of_pos_right (by exact_mod_cast hm53) (zpow_two_pos e)
      _ = 2 ^ (53 + e) := (zpow_add₀ (by norm_num) _ _).symm
      _ ≤ overflow := zpow_le_zpow_right₀ (by norm_num) (by omega)

/-- What is too large is an infinity with its sign. -/
theorem unpack_pack_of_overflow {f : UnpackedFloat} {p : ℚ} (h : Denotes f p) (hp : overflow ≤ p) :
    (Float.Model.pack f).unpack = .infinity .positive := by
  have hpos : 0 < p := lt_of_lt_of_le (zpow_two_pos 1024) hp
  by_cases he : ExponentFits f
  · have hrat : toRat? (.ofModel (Float.Model.pack f)) = some p := by
      show rat? (Float.Model.pack f).unpack = some p
      rw [unpack_pack h.1 he]
      exact h.2
    exact absurd (abs_lt_overflow hrat) (not_lt.2 (hp.trans (le_abs_self p)))
  · obtain ⟨s, rfl, -⟩ | ⟨s, m, e, hm, rfl, rfl⟩ := parts_of_rat? h.2
    · exact absurd trivial he
    · cases s with
      | positive => exact unpack_pack_of_large (not_le.1 he)
      | negative => exact absurd (negative_neg (e := e) hm) (not_lt.2 hpos.le)

/-- Numbers are below the infinity. -/
theorem lt_of_infinite {x y : Float} {p : ℚ} (hx : toRat? x = some p)
    (hy : y.toModel.unpack = .infinity .positive) : x < y := by
  rw [lt_iff_compare, hy]
  obtain ⟨s, hs, -⟩ | ⟨s, m, e, hm, hs, -⟩ := parts_of_rat? hx
  · rw [hs]
    rfl
  · rw [hs]
    cases s <;> rfl

/-- The number of a float is a multiple of the least distance of floats. -/
theorem exists_units {x : Float} {p : ℚ} (h : toRat? x = some p) :
    ∃ z : ℤ, p = z * 2 ^ leastExponent := by
  have hc := canonical_toModel x
  unfold toRat? at h
  generalize x.toModel.unpack = f at h hc
  obtain ⟨s, rfl, rfl⟩ | ⟨s, m, e, hm, rfl, rfl⟩ := parts_of_rat? h
  · exact ⟨0, by simp⟩
  · refine ⟨s.apply m * 2 ^ (e - leastExponent).toNat, ?_⟩
    have hle : leastExponent ≤ e := hc.2.1
    rw [Int.cast_mul, Int.cast_pow, mul_assoc, Int.cast_ofNat, ← zpow_natCast,
      ← zpow_add₀ (by norm_num), Int.toNat_of_nonneg (by omega), sub_add_cancel]

/-- Two floats that differ do so by the least distance at least. -/
theorem roundRat_sub_pos {x y : Float} {p q : ℚ} (hx : toRat? x = some p) (hy : toRat? y = some q)
    (h : p < q) : 0 < roundRat (q - p) := by
  obtain ⟨a, rfl⟩ := exists_units hx
  obtain ⟨b, rfl⟩ := exists_units hy
  have hunit := zpow_two_pos leastExponent
  have hab : a < b := by exact_mod_cast lt_of_mul_lt_mul_right h hunit.le
  have hone : (1 : ℚ) ≤ b - a := by exact_mod_cast (by omega : (1 : ℤ) ≤ b - a)
  have hle : ((1 : ℕ) : ℚ) * 2 ^ leastExponent ≤ b * 2 ^ leastExponent - a * 2 ^ leastExponent := by
    rw [← sub_mul, Nat.cast_one]
    exact mul_le_mul_of_nonneg_right hone hunit.le
  have hleast := roundRat_mono hle
  rw [roundRat_of_nonneg (by positivity), toNearest_of_dyadic (by norm_num) le_rfl] at hleast
  exact lt_of_lt_of_le (by simpa using hunit) hleast

/-- Parts that pack to a finite float are those of its number. -/
theorem eq_of_toRat?_pack {f : UnpackedFloat} {p q : ℚ} (h : Denotes f p)
    (hq : toRat? (.ofModel (Float.Model.pack f)) = some q) : q = p := by
  change rat? (Float.Model.pack f).unpack = some q at hq
  by_cases he : ExponentFits f
  · rw [unpack_pack h.1 he, h.2] at hq
    exact (Option.some.inj hq).symm
  · obtain ⟨s, rfl, rfl⟩ | ⟨s, m, e, hm, rfl, rfl⟩ := parts_of_rat? h.2
    · exact absurd trivial he
    · rw [unpack_pack_of_large (not_le.1 he)] at hq
      simp [rat?] at hq

theorem roundRat_nonneg {x : ℚ} (h : 0 ≤ x) : 0 ≤ roundRat x := by
  rw [← roundRat_zero]
  exact roundRat_mono h

/-- What is not greater than something that does not overflow does not overflow. -/
theorem toRat?_pack_of_le {f g : UnpackedFloat} {p q : ℚ} (hf : Denotes f (roundRat p))
    (hg : Denotes g (roundRat q)) (hp : 0 ≤ p) (hpq : p ≤ q)
    (hfinite : (Float.ofModel (Float.Model.pack g)).isFinite = true) :
    toRat? (.ofModel (Float.Model.pack f)) = some (roundRat p) := by
  obtain ⟨b, hb⟩ := exists_toRat?_iff.2 hfinite
  have hle : roundRat p ≤ b := by
    rw [eq_of_toRat?_pack hg hb]
    exact roundRat_mono hpq
  apply toRat?_pack hf
  have hsmall := abs_lt_overflow hb
  rw [abs_of_nonneg ((roundRat_nonneg hp).trans hle)] at hsmall
  rw [abs_of_nonneg (roundRat_nonneg hp)]
  exact lt_of_le_of_lt hle hsmall

variable {x y z : Float} {p q r : ℚ}

theorem toRat?_add_of_le (hx : toRat? x = some p) (hy : toRat? y = some q)
    (hz : toRat? z = some r) (hp : 0 ≤ p) (hpq : p ≤ q) (hr : 0 ≤ r)
    (hfinite : (y + z).isFinite = true) : toRat? (x + z) = some (roundRat (p + r)) :=
  toRat?_pack_of_le (denotes_add (denotes_toModel hx) (denotes_toModel hz))
    (denotes_add (denotes_toModel hy) (denotes_toModel hz)) (add_nonneg hp hr)
    (add_le_add_left hpq r) hfinite

end NeuralArch.Number
