import NeuralArch.Number.Binary
import NeuralArch.Proofs.Number.FloatArithmetic

/-!
# The parts of a float in its bits

The bits of a finite float hold a sign and a magnitude, and these are the parts
that floats are computed with.

* `unpack_eq_parts` — bits and parts.
* `unpack_of_class`, `classOf_of_toRat?` — a finite float, its magnitude and the
  number it denotes.
* `canonical_parts`, `toRat_lt_overflow` — what holds of such a magnitude.
* `exists_toRat?_ofBits`, `toBits_lt_of_pos` — which bits are those of numbers.
* `exists_inUnits` — a magnitude counted in units.
-/

namespace NeuralArch.Number

open Float.Model (UnpackedFloat Format)
open Float.Model.UnpackedFloat (Sign)

/-! ## Bits -/

theorem toNat_unpackMantissa (b : BitVec Format.binary64.numBits) :
    (UnpackedFloat.unpackMantissa b).toNat = b.toNat % fractionCount := by
  show (b.toNat >>> 0) % 2 ^ 52 = _
  rw [Nat.shiftRight_zero]
  rfl

theorem toNat_unpackExponent (b : BitVec Format.binary64.numBits) :
    (UnpackedFloat.unpackExponent b).toNat = b.toNat / fractionCount % fieldCount := by
  show (b.toNat >>> 52) % 2 ^ 11 = _
  rw [Nat.shiftRight_eq_div_pow]
  rfl

theorem ofBitVec_unpackSign (b : BitVec Format.binary64.numBits) :
    Sign.ofBitVec (UnpackedFloat.unpackSign b) =
      if fieldCount * fractionCount ≤ b.toNat then .negative else .positive := by
  have hbit : (UnpackedFloat.unpackSign b).toNat = b.toNat / (fieldCount * fractionCount) % 2 := by
    show (b.toNat >>> 63) % 2 ^ 1 = _
    rw [Nat.shiftRight_eq_div_pow]
    rfl
  have hb : b.toNat < 2 * (fieldCount * fractionCount) := b.isLt
  have hcount : 0 < fieldCount * fractionCount := by decide
  have hdiv : b.toNat / (fieldCount * fractionCount) < 2 :=
    Nat.div_lt_of_lt_mul (by omega)
  unfold Sign.ofBitVec
  by_cases h : fieldCount * fractionCount ≤ b.toNat
  · have hpos : 0 < b.toNat / (fieldCount * fractionCount) := Nat.div_pos h hcount
    rw [if_pos h, if_neg]
    intro hzero
    rw [hzero] at hbit
    change 0 = _ at hbit
    omega
  · rw [if_neg h, if_pos]
    apply BitVec.eq_of_toNat_eq
    rw [hbit, Nat.div_eq_of_lt (not_le.1 h)]
    rfl

/-! ## Magnitudes -/

/-- The number of a magnitude. -/
def Magnitude.toRat (m : Magnitude) : ℚ := m.mantissa * 2 ^ m.exponent

theorem Magnitude.toRat_nonneg (m : Magnitude) : 0 ≤ m.toRat :=
  mul_nonneg (Nat.cast_nonneg _) (zpow_two_pos _).le

/-- The sign of parts. -/
def signOf (negative : Bool) : Sign := if negative then .negative else .positive

/-- The parts of a magnitude with a sign. -/
def Magnitude.parts (m : Magnitude) (negative : Bool) : UnpackedFloat :=
  if h : 0 < m.mantissa then .finite (signOf negative) m.mantissa m.exponent h
  else .zero (signOf negative)

theorem rat?_parts (m : Magnitude) (negative : Bool) :
    rat? (m.parts negative) = some (if negative then -m.toRat else m.toRat) := by
  unfold Magnitude.parts Magnitude.toRat
  split
  · cases negative <;> simp [rat?, signOf, Sign.apply]
  · next h =>
    have hzero : m.mantissa = 0 := by omega
    cases negative <;> simp [rat?, hzero]

theorem finite_eq_parts {s : Sign} {negative : Bool} {n : ℕ} {e : ℤ} {hn : 0 < n} {m : Magnitude}
    (hs : s = signOf negative) (h : m = ⟨n, e⟩) :
    UnpackedFloat.finite s n e hn = m.parts negative := by
  subst hs h
  exact (dif_pos hn).symm

/-- The bits of a float hold its parts, the last exponent field excepted. -/
theorem unpack_eq_parts {b : BitVec Format.binary64.numBits}
    (h : ¬ b.toNat / fractionCount % fieldCount = fieldCount - 1) :
    UnpackedFloat.unpack Format.binary64 b =
      (Magnitude.ofBits b.toNat).parts (decide (fieldCount * fractionCount ≤ b.toNat)) := by
  have hmant := toNat_unpackMantissa b
  have hexp := toNat_unpackExponent b
  have hsign : Sign.ofBitVec (UnpackedFloat.unpackSign b) =
      signOf (decide (fieldCount * fractionCount ≤ b.toNat)) := by
    rw [ofBitVec_unpackSign, signOf]
    simp only [decide_eq_true_eq]
  unfold UnpackedFloat.unpack
  dsimp only
  split
  · next hmax =>
    refine absurd ?_ h
    rw [← hexp, hmax]
    rfl
  · split
    · next hzero =>
      have hfield0 : b.toNat / fractionCount % fieldCount = 0 := by
        rw [← hexp, hzero]
        rfl
      have hparts : Magnitude.ofBits b.toNat = ⟨b.toNat % fractionCount, leastExponent⟩ :=
        if_pos hfield0
      split
      · next hfraction =>
        have hfraction0 : b.toNat % fractionCount = 0 := by
          rw [← hmant, hfraction]
          rfl
        rw [hparts, hfraction0, hsign]
        rfl
      · apply finite_eq_parts hsign
        rw [hparts, hmant, hzero]
        rfl
    · next hzero =>
      have hfield0 : ¬ b.toNat / fractionCount % fieldCount = 0 := by
        rw [← hexp]
        exact fun heq => hzero (BitVec.eq_of_toNat_eq heq)
      have hparts : Magnitude.ofBits b.toNat = ⟨fractionCount + b.toNat % fractionCount,
          leastExponent + (b.toNat / fractionCount % fieldCount - 1 : ℕ)⟩ := if_neg hfield0
      apply finite_eq_parts hsign
      rw [hparts, toNat_one_append, hmant, hexp]
      congr 1
      rw [leastExponent]
      show _ = _ - ((1023 : ℤ) + 52)
      omega

/-- The last exponent field belongs to no number. -/
theorem rat?_unpack_of_last {b : BitVec Format.binary64.numBits}
    (h : b.toNat / fractionCount % fieldCount = fieldCount - 1) :
    rat? (UnpackedFloat.unpack Format.binary64 b) = none := by
  have hmax : UnpackedFloat.unpackExponent b = -1#_ := by
    apply BitVec.eq_of_toNat_eq
    rw [toNat_unpackExponent, h]
    rfl
  unfold UnpackedFloat.unpack
  dsimp only
  rw [if_pos hmax]
  split <;> rfl

/-- A finite float is made of its magnitude and its sign. -/
theorem unpack_of_class {x : Float} {negative : Bool} {m : Magnitude}
    (h : FloatClass.of x = .finite negative m) : x.toModel.unpack = m.parts negative := by
  unfold FloatClass.of at h
  dsimp only at h
  split at h
  · split at h <;> simp at h
  · next hfield =>
    obtain ⟨rfl, rfl⟩ := FloatClass.finite.inj h
    exact @unpack_eq_parts x.toModel.toBits.toBitVec hfield

theorem abs_signed (negative : Bool) (p : ℚ) : |if negative then -p else p| = |p| := by
  cases negative with
  | false => rfl
  | true => exact abs_neg p

/-- A finite float denotes its magnitude, with its sign. -/
theorem toRat?_of_class {x : Float} {negative : Bool} {m : Magnitude}
    (h : FloatClass.of x = .finite negative m) :
    toRat? x = some (if negative then -m.toRat else m.toRat) := by
  rw [toRat?, unpack_of_class h, rat?_parts]

/-- A float that denotes a number has its magnitude in its bits. -/
theorem classOf_of_toRat? {x : Float} {p : ℚ} (h : toRat? x = some p) :
    ∃ negative m, FloatClass.of x = .finite negative m ∧
      p = if negative then -m.toRat else m.toRat := by
  by_cases hfield : x.toBits.toNat / fractionCount % fieldCount = fieldCount - 1
  · have hnone : toRat? x = none := @rat?_unpack_of_last x.toModel.toBits.toBitVec hfield
    rw [hnone] at h
    exact absurd h (by simp)
  · have hclass : FloatClass.of x = .finite (decide (fieldCount * fractionCount ≤ x.toBits.toNat))
        (Magnitude.ofBits x.toBits.toNat) := if_neg hfield
    refine ⟨_, _, hclass, ?_⟩
    rw [toRat?_of_class hclass] at h
    exact (Option.some.inj h).symm

theorem isFinite_iff_class {x : Float} :
    x.isFinite = true ↔ ∃ negative m, FloatClass.of x = .finite negative m := by
  rw [← exists_toRat?_iff]
  constructor
  · rintro ⟨p, hp⟩
    obtain ⟨negative, m, hclass, -⟩ := classOf_of_toRat? hp
    exact ⟨negative, m, hclass⟩
  · rintro ⟨negative, m, hclass⟩
    exact ⟨_, toRat?_of_class hclass⟩

theorem canonical_parts {x : Float} {negative : Bool} {m : Magnitude}
    (h : FloatClass.of x = .finite negative m) (negative' : Bool) :
    Canonical (m.parts negative') := by
  have hcanonical := canonical_toModel x
  rw [unpack_of_class h] at hcanonical
  unfold Magnitude.parts at hcanonical ⊢
  split
  · next hm =>
    rw [dif_pos hm] at hcanonical
    exact hcanonical
  · trivial

/-- A magnitude has 53 bits at most, and fewer for the least exponent alone. -/
theorem bounds_of_canonical {m : Magnitude} {negative : Bool} (hm : 0 < m.mantissa)
    (h : Canonical (m.parts negative)) :
    m.mantissa < 2 ^ 53 ∧ leastExponent ≤ m.exponent ∧
      (2 ^ 52 ≤ m.mantissa ∨ m.exponent = leastExponent) := by
  rw [Magnitude.parts, dif_pos hm] at h
  exact h

theorem toRat_lt_overflow {x : Float} {negative : Bool} {m : Magnitude}
    (h : FloatClass.of x = .finite negative m) : m.toRat < overflow := by
  have habs := abs_lt_overflow (toRat?_of_class h)
  rw [abs_signed] at habs
  exact lt_of_abs_lt habs

/-! ## Bits of numbers -/

/-- Bits are kept, but for those of what is no number. -/
theorem unpack_ofBits (u : UInt64) :
    (Float.ofBits u).toModel.unpack = UnpackedFloat.unpack Format.binary64 u.toBitVec :=
  unpack_pack (canonical_unpack _).1 (canonical_unpack _).2

/-- The bits of the infinity, as a number. Smaller numbers are the bits of floats that are
finite and not negative. -/
def infinityBits : Nat := (fieldCount - 1) * fractionCount

theorem exists_toRat?_ofBits {n : ℕ} (h : n < infinityBits) :
    ∃ p, toRat? (Float.ofBits (UInt64.ofNat n)) = some p ∧ 0 ≤ p := by
  unfold infinityBits fieldCount fractionCount at h
  have hbits : (UInt64.ofNat n).toBitVec.toNat = n := Nat.mod_eq_of_lt (by omega)
  have hfield : ¬ (UInt64.ofNat n).toBitVec.toNat / fractionCount % fieldCount =
      fieldCount - 1 := by
    rw [hbits]
    unfold fieldCount fractionCount
    omega
  have hnegative : decide (fieldCount * fractionCount ≤ (UInt64.ofNat n).toBitVec.toNat) = false := by
    rw [hbits, decide_eq_false_iff_not]
    unfold fieldCount fractionCount
    omega
  refine ⟨(Magnitude.ofBits n).toRat, ?_, mul_nonneg (Nat.cast_nonneg _) (zpow_two_pos _).le⟩
  rw [toRat?, unpack_ofBits, unpack_eq_parts hfield, hnegative, rat?_parts, hbits,
    if_neg Bool.false_ne_true]

/-- The bits of a positive number are below those of the infinity. -/
theorem toBits_lt_of_pos {x : Float} {p : ℚ} (h : toRat? x = some p) (hp : 0 < p) :
    x.toBits.toNat < infinityBits := by
  by_cases hfield : x.toBits.toNat / fractionCount % fieldCount = fieldCount - 1
  · have hnone : toRat? x = none := @rat?_unpack_of_last x.toModel.toBits.toBitVec hfield
    exact absurd (hnone.symm.trans h) (by simp)
  have hclass : FloatClass.of x = .finite (decide (fieldCount * fractionCount ≤ x.toBits.toNat))
      (Magnitude.ofBits x.toBits.toNat) := if_neg hfield
  have hsign : ¬ fieldCount * fractionCount ≤ x.toBits.toNat := by
    intro hsign
    rw [toRat?, unpack_of_class hclass, rat?_parts, if_pos (decide_eq_true hsign)] at h
    have hmagnitude : 0 ≤ (Magnitude.ofBits x.toBits.toNat).toRat :=
      mul_nonneg (Nat.cast_nonneg _) (zpow_two_pos _).le
    have hneg : -(Magnitude.ofBits x.toBits.toNat).toRat = p := Option.some.inj h
    linarith
  unfold infinityBits
  unfold fieldCount fractionCount at *
  omega

/-! ## Units -/

theorem zpow_mul_pow_toNat {b : ℚ} (hb : b ≠ 0) (e : ℤ) :
    b ^ e * b ^ (-e).toNat = b ^ e.toNat := by
  rw [← zpow_natCast, ← zpow_natCast, ← zpow_add₀ hb]
  congr 1
  omega

/-- Numerator and denominator in some units are the magnitude and the unit, on one scale. -/
theorem exists_inUnits (m : Magnitude) (k : ℤ) :
    ∃ c : ℚ, 0 < c ∧ ((m.inUnits k).1 : ℚ) = m.toRat * c ∧ ((m.inUnits k).2 : ℚ) = 10 ^ k * c := by
  refine ⟨2 ^ (-m.exponent).toNat * 10 ^ (-k).toNat, by positivity, ?_, ?_⟩
  · rw [Magnitude.inUnits, Magnitude.toRat]
    simp only [Nat.pow_eq]
    push_cast
    rw [← zpow_mul_pow_toNat (by norm_num) m.exponent]
    ring
  · rw [Magnitude.inUnits]
    simp only [Nat.pow_eq]
    push_cast
    rw [← zpow_mul_pow_toNat (by norm_num) k]
    ring

end NeuralArch.Number
