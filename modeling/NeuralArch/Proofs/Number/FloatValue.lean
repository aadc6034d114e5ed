import Mathlib
import NeuralArch.Proofs.Number.Order
import NeuralArch.Proofs.Number.Rounding

/-!
# The numbers that floats denote

A finite float denotes a rational number.  Its parts are in canonical form: the
mantissa has all 53 digits, unless the exponent is the least one.  So floats are
ordered as their numbers are, and packing the parts loses nothing while the
exponent fits.

* `toRat?` — the number of a finite float.
* `le_iff_toRat`, `lt_iff_toRat` — the order of finite floats.
* `unpack_pack` — packed parts are found again.
-/

namespace NeuralArch.Number

open Float.Model (UnpackedFloat Format)
open Float.Model.UnpackedFloat (Sign)

/-! ## Parts and numbers -/

/-- The exponent of the magnitudes that lie farthest apart. -/
def greatestExponent : Int := 971

/-- The form in which parts determine a number: all digits are used, and they fit. -/
def Canonical : UnpackedFloat → Prop
  | .finite _ m e _ => m < 2 ^ 53 ∧ leastExponent ≤ e ∧ (2 ^ 52 ≤ m ∨ e = leastExponent)
  | _ => True

/-- The exponent, if there is one, is not too large to be packed. -/
def ExponentFits : UnpackedFloat → Prop
  | .finite _ _ e _ => e ≤ greatestExponent
  | _ => True

/-- The number that parts denote; none for infinities and what is no number. -/
def rat? : UnpackedFloat → Option ℚ
  | .zero _ => some 0
  | .finite s m e _ => some (s.apply m * 2 ^ e)
  | _ => none

/-- The number that a float denotes. -/
def toRat? (x : Float) : Option ℚ := rat? x.toModel.unpack

/-- What denotes a number is a zero, or finite. -/
theorem parts_of_rat? {f : UnpackedFloat} {p : ℚ} (h : rat? f = some p) :
    (∃ s, f = .zero s ∧ p = 0) ∨
      ∃ s m e hm, f = .finite s m e hm ∧ p = s.apply m * 2 ^ e := by
  cases f with
  | notANumber => simp [rat?] at h
  | infinity s => simp [rat?] at h
  | zero s => exact .inl ⟨s, rfl, (Option.some.inj h).symm⟩
  | finite s m e hm => exact .inr ⟨s, m, e, hm, rfl, (Option.some.inj h).symm⟩

/-! ## Unpacked floats -/

theorem toNat_one_append {n : ℕ} (b : BitVec n) : (1#1 ++ b).toNat = 2 ^ n + b.toNat := by
  rw [BitVec.toNat_append, ← Nat.shiftLeft_add_eq_or_of_lt b.isLt]
  simp [Nat.shiftLeft_eq]

theorem canonical_unpack (b : BitVec Format.binary64.numBits) :
    Canonical (UnpackedFloat.unpack Format.binary64 b) ∧
      ExponentFits (UnpackedFloat.unpack Format.binary64 b) := by
  unfold UnpackedFloat.unpack
  dsimp only
  have hm : (UnpackedFloat.unpackMantissa b).toNat < 2 ^ 52 :=
    (UnpackedFloat.unpackMantissa b).isLt
  have he : (UnpackedFloat.unpackExponent b).toNat < 2 ^ 11 :=
    (UnpackedFloat.unpackExponent b).isLt
  have hbias : Format.binary64.exponentBias = 1023 := rfl
  split
  · split
    · exact ⟨trivial, trivial⟩
    · exact ⟨trivial, trivial⟩
  · next hnotmax =>
    have hmax : (UnpackedFloat.unpackExponent b).toNat ≠ 2047 := by
      intro h
      exact hnotmax (BitVec.eq_of_toNat_eq (by rw [h]; rfl))
    split
    · split
      · exact ⟨trivial, trivial⟩
      · next hzero _ =>
        have h0 : (UnpackedFloat.unpackExponent b).toNat = 0 := by
          rw [hzero]
          rfl
        simp only [Canonical, ExponentFits, leastExponent, greatestExponent, h0, hbias]
        omega
    · next hzero =>
      have h0 : (UnpackedFloat.unpackExponent b).toNat ≠ 0 := by
        intro h
        exact hzero (BitVec.eq_of_toNat_eq (by rw [h]; rfl))
      simp only [Canonical, ExponentFits, leastExponent, greatestExponent, hbias,
        toNat_one_append]
      omega

theorem canonical_toModel (x : Float) : Canonical x.toModel.unpack :=
  (canonical_unpack _).1

theorem exponentFits_toModel (x : Float) : ExponentFits x.toModel.unpack :=
  (canonical_unpack _).2

/-! ## Order -/

theorem zpow_two_pos (e : ℤ) : (0 : ℚ) < 2 ^ e := zpow_pos (by norm_num) e

/-- With all digits used, the greater exponent belongs to the greater number. -/
theorem mul_zpow_lt_of_exponent_lt {m n : ℕ} {e f : ℤ} (hm : m < 2 ^ 53) (hn : 2 ^ 52 ≤ n)
    (h : e < f) : (m : ℚ) * 2 ^ e < n * 2 ^ f := by
  have hm' : (m : ℚ) < 2 ^ 53 := by exact_mod_cast hm
  have hn' : (2 : ℚ) ^ 52 ≤ n := by exact_mod_cast hn
  calc (m : ℚ) * 2 ^ e < 2 ^ 53 * 2 ^ e := mul_lt_mul_of_pos_right hm' (zpow_two_pos e)
    _ ≤ 2 ^ 52 * 2 ^ f := by
        rw [← zpow_natCast, ← zpow_natCast, ← zpow_add₀ (by norm_num),
          ← zpow_add₀ (by norm_num)]
        refine zpow_le_zpow_right₀ (by norm_num) ?_
        push_cast
        omega
    _ ≤ n * 2 ^ f := mul_le_mul_of_nonneg_right hn' (zpow_two_pos f).le

/-- Exponents and mantissas are compared as the numbers are. -/
theorem compare_parts {m n : ℕ} {e f : ℤ} (hm : m < 2 ^ 53) (hn : n < 2 ^ 53)
    (he : leastExponent ≤ e) (hf : leastExponent ≤ f) (hm' : 2 ^ 52 ≤ m ∨ e = leastExponent)
    (hn' : 2 ^ 52 ≤ n ∨ f = leastExponent) :
    (compare e f).then (compare m n) = compare ((m : ℚ) * 2 ^ e) (n * 2 ^ f) := by
  rcases lt_trichotomy e f with h | rfl | h
  · have hn52 : 2 ^ 52 ≤ n := hn'.resolve_right (by omega)
    rw [compare_lt_iff_lt.2 h, compare_lt_iff_lt.2 (mul_zpow_lt_of_exponent_lt hm hn52 h)]
    rfl
  · rw [compare_eq_iff_eq.2 rfl]
    show compare m n = _
    rcases lt_trichotomy m n with h | rfl | h
    · have : (m : ℚ) * 2 ^ e < n * 2 ^ e :=
        mul_lt_mul_of_pos_right (by exact_mod_cast h) (zpow_two_pos e)
      rw [compare_lt_iff_lt.2 h, compare_lt_iff_lt.2 this]
    · rw [compare_eq_iff_eq.2 rfl, compare_eq_iff_eq.2 rfl]
    · have : (n : ℚ) * 2 ^ e < m * 2 ^ e :=
        mul_lt_mul_of_pos_right (by exact_mod_cast h) (zpow_two_pos e)
      rw [compare_gt_iff_gt.2 h, compare_gt_iff_gt.2 this]
  · have hm52 : 2 ^ 52 ≤ m := hm'.resolve_right (by omega)
    rw [compare_gt_iff_gt.2 h, compare_gt_iff_gt.2 (mul_zpow_lt_of_exponent_lt hn hm52 h)]
    rfl

theorem finite_pos {m : ℕ} {e : ℤ} (hm : 0 < m) : (0 : ℚ) < m * 2 ^ e :=
  mul_pos (by exact_mod_cast hm) (zpow_two_pos e)

theorem positive_pos {m : ℕ} {e : ℤ} (hm : 0 < m) :
    (0 : ℚ) < (Sign.positive.apply m : ℤ) * 2 ^ e := by
  rw [Sign.apply, Int.cast_natCast]
  exact finite_pos hm

theorem negative_neg {m : ℕ} {e : ℤ} (hm : 0 < m) :
    (Sign.negative.apply m : ℤ) * (2 : ℚ) ^ e < 0 := by
  rw [Sign.apply, Int.cast_neg, Int.cast_natCast, neg_mul]
  exact neg_lt_zero.2 (finite_pos hm)

theorem compare_neg_neg (x y : ℚ) : compare (-x) (-y) = (compare x y).swap := by
  rcases lt_trichotomy x y with h | rfl | h
  · rw [compare_lt_iff_lt.2 h, compare_gt_iff_gt.2 (neg_lt_neg h)]
    rfl
  · rw [compare_eq_iff_eq.2 rfl, compare_eq_iff_eq.2 rfl]
    rfl
  · rw [compare_gt_iff_gt.2 h, compare_lt_iff_lt.2 (neg_lt_neg h)]
    rfl

theorem compare_zero_finite (s t : Sign) {m : ℕ} (e : ℤ) (hm : 0 < m) :
    (UnpackedFloat.zero s).compare (.finite t m e hm) =
      some (compare 0 (t.apply m * 2 ^ e : ℚ)) := by
  cases t with
  | positive =>
    rw [compare_lt_iff_lt.2 (positive_pos hm)]
    rfl
  | negative =>
    rw [compare_gt_iff_gt.2 (negative_neg hm)]
    rfl

theorem compare_finite_zero (s t : Sign) {m : ℕ} (e : ℤ) (hm : 0 < m) :
    (UnpackedFloat.finite s m e hm).compare (.zero t) =
      some (compare (s.apply m * 2 ^ e : ℚ) 0) := by
  cases s with
  | positive =>
    rw [compare_gt_iff_gt.2 (positive_pos hm)]
    rfl
  | negative =>
    rw [compare_lt_iff_lt.2 (negative_neg hm)]
    rfl

/-- The signs decide, and where they agree, exponents and mantissas. -/
theorem compare_finite_finite {s t : Sign} {m n : ℕ} {e f : ℤ} {hm : 0 < m} {hn : 0 < n}
    (hf : Canonical (.finite s m e hm)) (hg : Canonical (.finite t n f hn)) :
    (UnpackedFloat.finite s m e hm).compare (.finite t n f hn) =
      some (compare (s.apply m * 2 ^ e : ℚ) (t.apply n * 2 ^ f)) := by
  obtain ⟨hm53, he, hm52⟩ := hf
  obtain ⟨hn53, hf, hn52⟩ := hg
  have hparts := compare_parts hm53 hn53 he hf hm52 hn52
  cases s with
  | positive =>
    cases t with
    | positive =>
      simp only [Sign.apply, Int.cast_natCast]
      rw [← hparts]
      rfl
    | negative =>
      rw [compare_gt_iff_gt.2 ((negative_neg hn).trans (positive_pos hm))]
      rfl
  | negative =>
    cases t with
    | positive =>
      rw [compare_lt_iff_lt.2 ((negative_neg hm).trans (positive_pos hn))]
      rfl
    | negative =>
      simp only [Sign.apply, Int.cast_neg, Int.cast_natCast, neg_mul]
      rw [compare_neg_neg, ← hparts]
      rfl

/-- Canonical parts are compared as their numbers are. -/
theorem compare_eq_compare {f g : UnpackedFloat} {p q : ℚ} (hf : Canonical f)
    (hg : Canonical g) (hp : rat? f = some p) (hq : rat? g = some q) :
    f.compare g = some (compare p q) := by
  obtain ⟨s, rfl, rfl⟩ | ⟨s, m, e, hm, rfl, rfl⟩ := parts_of_rat? hp
  · obtain ⟨t, rfl, rfl⟩ | ⟨t, n, d, hn, rfl, rfl⟩ := parts_of_rat? hq
    · rfl
    · exact compare_zero_finite s t d hn
  · obtain ⟨t, rfl, rfl⟩ | ⟨t, n, d, hn, rfl, rfl⟩ := parts_of_rat? hq
    · exact compare_finite_zero s t e hm
    · exact compare_finite_finite hf hg

/-- Finite floats are ordered as their numbers are. -/
theorem le_iff_toRat {x y : Float} {p q : ℚ} (hx : toRat? x = some p) (hy : toRat? y = some q) :
    x ≤ y ↔ p ≤ q := by
  rw [le_iff_compare, compare_eq_compare (canonical_toModel x) (canonical_toModel y) hx hy,
    Option.any_some, ← compare_le_iff_le]
  cases compare p q <;> simp [Ordering.isLE]

theorem lt_iff_toRat {x y : Float} {p q : ℚ} (hx : toRat? x = some p) (hy : toRat? y = some q) :
    x < y ↔ p < q := by
  rw [lt_iff_compare, compare_eq_compare (canonical_toModel x) (canonical_toModel y) hx hy,
    Option.some.injEq, compare_lt_iff_lt]

theorem beq_iff_toRat {x y : Float} {p q : ℚ} (hx : toRat? x = some p) (hy : toRat? y = some q) :
    (x == y) = true ↔ p = q := by
  show (x.toModel.unpack.compare y.toModel.unpack == some .eq) = true ↔ _
  rw [beq_iff_eq, compare_eq_compare (canonical_toModel x) (canonical_toModel y) hx hy,
    Option.some.injEq, compare_eq_iff_eq]

/-- To what is not finite, all numbers compare alike. -/
theorem compare_of_not_finite {f g g' : UnpackedFloat} {p q : ℚ} (hf : rat? f = none)
    (hg : rat? g = some p) (hg' : rat? g' = some q) :
    f.compare g = f.compare g' ∧ g.compare f = g'.compare f := by
  cases f with
  | zero s => simp [rat?] at hf
  | finite s m e hm => simp [rat?] at hf
  | notANumber => cases g <;> cases g' <;> exact ⟨rfl, rfl⟩
  | infinity s =>
    cases s <;> cases g <;> cases g' <;>
      first | exact ⟨rfl, rfl⟩ | simp [rat?] at hg hg'

/-- What is not above a float is not above a greater one, be it finite or not. -/
theorem le_of_toRat_le {a x y : Float} {p q : ℚ} (hx : toRat? x = some p)
    (hy : toRat? y = some q) (hpq : p ≤ q) (h : a ≤ x) : a ≤ y := by
  cases ha : toRat? a with
  | some r => exact (le_iff_toRat ha hy).2 (le_trans ((le_iff_toRat ha hx).1 h) hpq)
  | none =>
    rw [le_iff_compare] at h ⊢
    rwa [← (compare_of_not_finite ha hx hy).1]

/-- What is above a float is above a smaller one, be it finite or not. -/
theorem lt_of_toRat_le {x y u : Float} {p q : ℚ} (hx : toRat? x = some p)
    (hy : toRat? y = some q) (hpq : p ≤ q) (h : y < u) : x < u := by
  cases hu : toRat? u with
  | some r => exact (lt_iff_toRat hx hu).2 (lt_of_le_of_lt hpq ((lt_iff_toRat hy hu).1 h))
  | none =>
    rw [lt_iff_compare] at h ⊢
    rwa [(compare_of_not_finite hu hx hy).2]

/-! ## Packing -/

theorem unpackSign_packComponents (s : Sign) (e : BitVec 11) (m : BitVec 52) :
    UnpackedFloat.unpackSign (UnpackedFloat.packComponents Format.binary64 s e m) =
      s.toBitVec := by
  ext i hi
  obtain rfl : i = 0 := by omega
  have hrest : (s.toBitVec ++ e ++ m).getLsbD 63 = (s.toBitVec ++ e).getLsbD 11 :=
    BitVec.getLsbD_append
  have hsign : (s.toBitVec ++ e).getLsbD 11 = s.toBitVec.getLsbD 0 := BitVec.getLsbD_append
  simp only [UnpackedFloat.unpackSign, UnpackedFloat.packComponents, BitVec.extractLsb,
    BitVec.getElem_cast, BitVec.getElem_extractLsb']
  exact hrest.trans hsign

theorem ofBitVec_toBitVec (s : Sign) : Sign.ofBitVec s.toBitVec = s := by
  cases s <;> rfl

/-- What components are unpacked to. -/
theorem unpack_packComponents (s : Sign) (e : BitVec 11) (m : BitVec 52) :
    UnpackedFloat.unpack Format.binary64 (UnpackedFloat.packComponents Format.binary64 s e m) =
      if e = -1#11 then
        if m = 0#52 then .infinity s else .notANumber
      else if e = 0#11 then
        if h : m = 0#52 then .zero s
        else .finite s m.toNat leastExponent (by
          simpa [BitVec.toNat_pos, BitVec.pos_iff_ne_zero] using h)
      else .finite s (2 ^ 52 + m.toNat) (e.toNat - 1075) (by omega) := by
  unfold UnpackedFloat.unpack
  simp only [UnpackedFloat.unpackMantissa_packComponents,
    UnpackedFloat.unpackExponent_packComponents, unpackSign_packComponents, ofBitVec_toBitVec,
    toNat_one_append]
  split
  · rfl
  · split
    · next he =>
      subst he
      rfl
    · rfl

/-- The components of a number whose exponent fits. -/
theorem pack_finite {s : Sign} {m : ℕ} {e : ℤ} {hm : 0 < m} (he : e ≤ greatestExponent) :
    UnpackedFloat.pack Format.binary64 (.finite s m e hm) =
      UnpackedFloat.packComponents Format.binary64 s
        (if m.log2 + 1 = 53 then BitVec.ofNat 11 (e + 1075).toNat else 0#11)
        (BitVec.ofNat 52 m) := by
  rw [greatestExponent] at he
  have hbiased : (e + (Format.binary64.exponentBias : ℤ) +
      (Format.binary64.mantissaBitsWithoutImplicit : ℤ)).toNat = (e + 1075).toNat := by
    show (e + 1023 + 52).toNat = _
    congr 1
    ring
  have hlt : ¬ 2 ^ Format.binary64.exponentBits ≤ (e + 1075).toNat + 1 := by
    show ¬ 2 ^ 11 ≤ _
    omega
  rw [UnpackedFloat.pack]
  simp only [hbiased]
  rw [if_neg hlt]
  show (if m.log2 + 1 = 53 then _ else _) = _
  split
  · rfl
  · rfl

theorem unpack_pack_of_full {s : Sign} {m : ℕ} {e : ℤ} {hm : 0 < m} (hm53 : m < 2 ^ 53)
    (hm52 : 2 ^ 52 ≤ m) (hleast : leastExponent ≤ e) (he : e ≤ greatestExponent) :
    (Float.Model.pack (.finite s m e hm)).unpack = .finite s m e hm := by
  have hlog : m.log2 + 1 = 53 := by
    have h52 : 52 ≤ m.log2 := (Nat.le_log2 hm.ne').2 hm52
    have h53 : m.log2 < 53 := (Nat.log2_lt hm.ne').2 hm53
    omega
  show UnpackedFloat.unpack Format.binary64 (UnpackedFloat.pack Format.binary64 _) = _
  rw [pack_finite he, if_pos hlog, unpack_packComponents]
  rw [leastExponent] at hleast
  rw [greatestExponent] at he
  have hexp : (BitVec.ofNat 11 (e + 1075).toNat).toNat = (e + 1075).toNat := by
    rw [BitVec.toNat_ofNat, Nat.mod_eq_of_lt (by omega)]
  have hmant : (BitVec.ofNat 52 m).toNat = m - 2 ^ 52 := by
    rw [BitVec.toNat_ofNat]
    omega
  have hnotmax : BitVec.ofNat 11 (e + 1075).toNat ≠ -1#11 := by
    intro h
    have hmax : (e + 1075).toNat = 2047 := hexp.symm.trans (congrArg BitVec.toNat h)
    omega
  have hnotzero : BitVec.ofNat 11 (e + 1075).toNat ≠ 0#11 := by
    intro h
    have hzero : (e + 1075).toNat = 0 := hexp.symm.trans (congrArg BitVec.toNat h)
    omega
  rw [if_neg hnotmax, if_neg hnotzero]
  congr 1
  · rw [hmant]
    omega
  · rw [hexp]
    omega

theorem unpack_pack_of_least {s : Sign} {m : ℕ} {hm : 0 < m} (hm52 : m < 2 ^ 52) :
    (Float.Model.pack (.finite s m leastExponent hm)).unpack = .finite s m leastExponent hm := by
  have hlog : ¬ m.log2 + 1 = 53 := by
    have h52 : m.log2 < 52 := (Nat.log2_lt hm.ne').2 hm52
    omega
  show UnpackedFloat.unpack Format.binary64 (UnpackedFloat.pack Format.binary64 _) = _
  rw [pack_finite (by decide), if_neg hlog, unpack_packComponents]
  have hmant : (BitVec.ofNat 52 m).toNat = m := by
    rw [BitVec.toNat_ofNat, Nat.mod_eq_of_lt (by omega)]
  have hnotzero : BitVec.ofNat 52 m ≠ 0#52 := by
    intro h
    have hzero : m = 0 := hmant.symm.trans (congrArg BitVec.toNat h)
    omega
  rw [if_neg (by decide), if_pos rfl, dif_neg hnotzero]
  congr 1

/-- Packed parts are found again, if the exponent fits. -/
theorem unpack_pack {f : UnpackedFloat} (hc : Canonical f) (he : ExponentFits f) :
    (Float.Model.pack f).unpack = f := by
  match f with
  | .notANumber =>
    show UnpackedFloat.unpack Format.binary64 (UnpackedFloat.pack Format.binary64 _) = _
    rw [UnpackedFloat.pack, UnpackedFloat.packedNaN, unpack_packComponents]
    rfl
  | .infinity s =>
    show UnpackedFloat.unpack Format.binary64 (UnpackedFloat.pack Format.binary64 _) = _
    rw [UnpackedFloat.pack, UnpackedFloat.packedInfinity, unpack_packComponents]
    rfl
  | .zero s =>
    show UnpackedFloat.unpack Format.binary64 (UnpackedFloat.pack Format.binary64 _) = _
    rw [UnpackedFloat.pack, UnpackedFloat.packedZero, unpack_packComponents]
    rfl
  | .finite s m e hm =>
    obtain ⟨hm53, hleast, hm52⟩ := hc
    by_cases hfull : 2 ^ 52 ≤ m
    · exact unpack_pack_of_full hm53 hfull hleast he
    · obtain rfl := hm52.resolve_left hfull
      exact unpack_pack_of_least (not_le.1 hfull)

/-- A number whose exponent does not fit is packed as an infinity. -/
theorem unpack_pack_of_large {s : Sign} {m : ℕ} {e : ℤ} {hm : 0 < m}
    (h : greatestExponent < e) :
    (Float.Model.pack (.finite s m e hm)).unpack = .infinity s := by
  show UnpackedFloat.unpack Format.binary64 (UnpackedFloat.pack Format.binary64 _) = _
  rw [greatestExponent] at h
  have hge : 2 ^ Format.binary64.exponentBits ≤ (e + (Format.binary64.exponentBias : ℤ) +
      (Format.binary64.mantissaBitsWithoutImplicit : ℤ)).toNat + 1 := by
    show 2 ^ 11 ≤ (e + 1023 + 52).toNat + 1
    omega
  rw [UnpackedFloat.pack]
  simp only []
  rw [if_pos hge, UnpackedFloat.packedInfinity, unpack_packComponents]
  rfl

end NeuralArch.Number
