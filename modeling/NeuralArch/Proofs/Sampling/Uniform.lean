import NeuralArch.Proofs.Number.Decimal
import NeuralArch.Proofs.Random.Draw
import NeuralArch.Sampling

/-!
# Floats of a range, written with some decimals

A float of a range is drawn as 52 bits behind the point, scaled and moved.  Each
step rounds, and rounding keeps the order, so every draw lies between the draw of
all zeros and the draw of all ones.  What is written then lies between what these
two are written as.

* `uniformAt` — the float of a number of 52 bits.
* `toRat?_scaled` — a fraction of 52 bits, scaled.
* `Spans` — what is to be checked at the two ends.
* `gives_uniform` — the texts that a sampler writes.
-/

namespace NeuralArch

open Number Draw

/-- The float that a number of 52 bits stands for, scaled and moved. -/
def uniformAt (min scale : Float) (k : Nat) : Float :=
  Float.ofNat k / 0x10000000000000 * scale + min

/-- The greatest number of 52 bits. -/
def greatestBits : Nat := 0xFFFFFFFFFFFFF

/-- A range whose steps from 52 bits to a float do not overflow, with its scale, and with the
digits that its two ends are written as. -/
structure Spans (min max scale : Float) (places least greatest : Nat) : Prop where
  lt : min < max
  length_finite : ((max - min) / greatestFraction).isFinite = true
  scale_eq : fitScale min max ((max - min) / greatestFraction).toBits.toNat = scale
  min_finite : min.isFinite = true
  min_nonneg : 0 ≤ min
  scale_finite : scale.isFinite = true
  scale_nonneg : 0 ≤ scale
  fraction_finite : (Float.ofNat greatestBits / 0x10000000000000).isFinite = true
  product_finite : (Float.ofNat greatestBits / 0x10000000000000 * scale).isFinite = true
  sum_finite : (uniformAt min scale greatestBits).isFinite = true
  least_pos : 0 < uniformAt min scale 0
  least_eq : fixedDigits? places (uniformAt min scale 0) = some least
  greatest_eq : fixedDigits? places (uniformAt min scale greatestBits) = some greatest

/-! ## Fractions and scales -/

/-- Fractions of 52 bits are floats. -/
theorem toRat?_fraction {k : ℕ} (hk : k ≤ greatestBits) :
    toRat? (Float.ofNat k / 0x10000000000000) = some ((k : ℚ) * 2 ^ (-52 : ℤ)) := by
  have hlt : k < 2 ^ 53 := by
    unfold greatestBits at hk
    omega
  have hden : toRat? 0x10000000000000 = some ((0x10000000000000 : ℕ) : ℚ) :=
    toRat?_ofNat (by norm_num)
  have hdyadic : (k : ℚ) / (0x10000000000000 : ℕ) = k * 2 ^ (-52 : ℤ) := by
    rw [div_eq_mul_inv]
    norm_num
  have hdiv := denotes_div (toRat?_ofNat hlt) hden (by norm_num)
  rw [hdyadic, roundRat_of_nonneg (by positivity), toNearest_of_dyadic hlt (by decide)] at hdiv
  refine toRat?_pack hdiv ?_
  rw [abs_of_nonneg (by positivity)]
  refine lt_of_le_of_lt ?_ (lt_of_abs_lt (natCast_lt_overflow hlt))
  exact mul_le_of_le_one_right (Nat.cast_nonneg k) (by norm_num)

variable {min max scale : Float} {r : ℚ}

/-- What a fraction of 52 bits makes of a scale. -/
def scaled (r : ℚ) (k : ℕ) : ℚ := roundRat (k * 2 ^ (-52 : ℤ) * r)

theorem scaled_mono (hr : 0 ≤ r) {j k : ℕ} (h : j ≤ k) : scaled r j ≤ scaled r k := by
  have hcast : (j : ℚ) ≤ k := by exact_mod_cast h
  exact roundRat_mono (mul_le_mul_of_nonneg_right
    (mul_le_mul_of_nonneg_right hcast (zpow_two_pos _).le) hr)

theorem scaled_nonneg (hr : 0 ≤ r) (k : ℕ) : 0 ≤ scaled r k :=
  roundRat_nonneg (mul_nonneg (mul_nonneg (Nat.cast_nonneg k) (zpow_two_pos _).le) hr)

/-- A fraction is below one, so no product is above the scale, and none is infinite. -/
theorem toRat?_scaled (hscale : toRat? scale = some r) (hr : 0 ≤ r) {k : ℕ}
    (hk : k ≤ greatestBits) :
    toRat? (Float.ofNat k / 0x10000000000000 * scale) = some (scaled r k) := by
  have hone : (k : ℚ) * 2 ^ (-52 : ℤ) ≤ 1 := by
    have hcast : (k : ℚ) ≤ 2 ^ (52 : ℤ) := by
      have hle : k ≤ 2 ^ 52 := hk.trans (by decide)
      exact_mod_cast hle
    calc (k : ℚ) * 2 ^ (-52 : ℤ) ≤ 2 ^ (52 : ℤ) * 2 ^ (-52 : ℤ) :=
          mul_le_mul_of_nonneg_right hcast (zpow_two_pos _).le
      _ = 1 := by norm_num
  have hupper : scaled r k ≤ r :=
    (roundRat_mono (mul_le_of_le_one_left hr hone)).trans_eq (denotes_toModel hscale).roundRat_eq
  refine toRat?_mul (toRat?_fraction hk) hscale ?_
  rw [← scaled, abs_of_nonneg (scaled_nonneg hr k)]
  exact lt_of_le_of_lt hupper (lt_of_abs_lt (abs_lt_overflow hscale))

/-! ## The two ends -/

variable {places least greatest : Nat}

/-- Numbers of 52 bits are ordered as their floats are. -/
theorem Spans.toRat?_uniformAt (h : Spans min max scale places least greatest) :
    ∃ value : Nat → ℚ, Monotone value ∧
      ∀ k ≤ greatestBits, toRat? (uniformAt min scale k) = some (value k) := by
  obtain ⟨m, hm⟩ := exists_toRat?_iff.2 h.min_finite
  obtain ⟨r, hr⟩ := exists_toRat?_iff.2 h.scale_finite
  have hzero : toRat? 0 = some 0 := rfl
  have hm0 : 0 ≤ m := (le_iff_toRat hzero hm).1 h.min_nonneg
  have hr0 : 0 ≤ r := (le_iff_toRat hzero hr).1 h.scale_nonneg
  refine ⟨fun k => roundRat (scaled r k + m), fun j k hjk => ?_, fun k hk => ?_⟩
  · exact roundRat_mono (add_le_add_left (scaled_mono hr0 hjk) m)
  · exact toRat?_add_of_le (toRat?_scaled hr hr0 hk) (toRat?_scaled hr hr0 (le_refl greatestBits))
      hm (scaled_nonneg hr0 k) (scaled_mono hr0 hk) hm0 h.sum_finite

/-- The digits of every draw lie between those of the two ends. -/
theorem Spans.exists_fixedDigits? (h : Spans min max scale places least greatest) {k : Nat}
    (hk : k ≤ greatestBits) :
    ∃ n, fixedDigits? places (uniformAt min scale k) = some n ∧ least ≤ n ∧ n ≤ greatest := by
  obtain ⟨value, hmono, hvalue⟩ := h.toRat?_uniformAt
  have hleast := hvalue 0 (Nat.zero_le _)
  have hgreatest := hvalue greatestBits (Nat.le_refl _)
  have hpos : 0 < value 0 := (lt_iff_toRat rfl hleast).1 h.least_pos
  have hlow : value 0 ≤ value k := hmono (Nat.zero_le k)
  have hhigh : value k ≤ value greatestBits := hmono hk
  have hposk : 0 < value k := lt_of_lt_of_le hpos hlow
  have hn := @fixedDigits?_eq places _ _ (hvalue k hk) hposk
  exact ⟨_, hn, fixedDigits?_mono hleast (hvalue k hk) hpos hlow h.least_eq hn,
    fixedDigits?_mono (hvalue k hk) hgreatest hposk hhigh hn h.greatest_eq⟩

variable {σ : Type} [RandomSource σ]

/-- A float is drawn as 52 bits. -/
theorem gives_float_bits (hlt : min < max)
    (hfinite : ((max - min) / greatestFraction).isFinite = true) :
    (Draw.float min max : Draw σ Float).Gives fun x => ∃ k ≤ greatestBits,
      x = uniformAt min (fitScale min max ((max - min) / greatestFraction).toBits.toNat) k := by
  rw [Draw.float, if_pos hlt]
  dsimp only
  rw [if_pos hfinite]
  refine (gives_raw .word).bind fun word hword => gives_pure ⟨word >>> 12, ?_, rfl⟩
  have hsize : word < 0x10000000000000000 := hword
  rw [Nat.shiftRight_eq_div_pow, greatestBits]
  omega

/-- What is written of a range lies between what its two ends are written as. -/
theorem gives_uniform (h : Spans min max scale places least greatest) (hplaces : 0 < places)
    (patience : Nat) :
    ((Sampler.uniform min max places).sample patience : Draw σ String).Gives fun text =>
      ∃ n, least ≤ n ∧ n ≤ greatest ∧ text = decimalText places n := by
  have hmax : Nat.max places 1 = places := Nat.max_eq_left hplaces
  refine (gives_float_bits h.lt h.length_finite).bind fun x hx => gives_pure ?_
  obtain ⟨k, hk, rfl⟩ := hx
  rw [h.scale_eq]
  obtain ⟨n, hn, hleast, hgreatest⟩ := h.exists_fixedDigits? hk
  rw [hmax]
  exact ⟨n, hleast, hgreatest, fixed_of_fixedDigits? hn⟩

end NeuralArch
