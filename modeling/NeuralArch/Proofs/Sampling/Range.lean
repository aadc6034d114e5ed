import NeuralArch.Proofs.Sampling.Uniform

/-!
# Numbers of any range

The draw of a float multiplies a fraction with a scale and adds the lower end,
and each step rounds.  The scale is looked for from above, and taken as soon as
the draw of all ones is not above the upper end; rounding keeps the order, so
then no draw is.  This needs neither ends of one sign nor a length that is
exact, only that the length is a finite float; and if it is not, nothing is
drawn.

* `exists_fitScale` — the scale that is found.
* `uniformAt_between` — no draw leaves the range.
* `float_between` — so what is drawn lies in the range.
* `gives_integer_between` — and so does an integer.
-/

namespace NeuralArch.Draw

open Number
open Float.Model (UnpackedFloat Format)

theorem greatestFraction_eq : greatestFraction = Float.ofNat greatestBits / 0x10000000000000 := by
  rfl

/-- A scale that keeps the range: zero, or such that the greatest draw is not above `max`. -/
theorem exists_fitScale (min max : Float) {n : ℕ} (h : n < infinityBits) :
    ∃ r, toRat? (fitScale min max n) = some r ∧ 0 ≤ r ∧
      (r = 0 ∨ ¬ max < fitScale min max n * greatestFraction + min) := by
  induction n with
  | zero => exact ⟨0, by rw [fitScale]; rfl, le_rfl, .inl rfl⟩
  | succ n ih =>
    rw [fitScale]
    split
    · exact ih (by omega)
    · next hfit =>
      obtain ⟨r, hr, hr0⟩ := exists_toRat?_ofBits h
      exact ⟨r, hr, hr0, .inr hfit⟩

variable {min max scale x : Float} {m M r : ℚ}

/-- If the greatest draw is not above `max`, no draw is. -/
theorem roundRat_scaled_le (hmin : toRat? min = some m) (hmax : toRat? max = some M)
    (hscale : toRat? scale = some r) (hr : 0 ≤ r)
    (hfit : ¬ max < scale * greatestFraction + min) {k : ℕ} (hk : k ≤ greatestBits) :
    roundRat (scaled r k + m) ≤ M := by
  have hproduct : toRat? (scale * greatestFraction) = some (scaled r greatestBits) := by
    have hg := toRat?_fraction (le_refl greatestBits)
    rw [← greatestFraction_eq] at hg
    have habs := abs_lt_overflow (toRat?_scaled hscale hr (le_refl greatestBits))
    rw [scaled, mul_comm] at habs ⊢
    exact toRat?_mul hscale hg habs
  have hsum := denotes_add (denotes_toModel hproduct) (denotes_toModel hmin)
  have hmono : roundRat (scaled r k + m) ≤ roundRat (scaled r greatestBits + m) :=
    roundRat_mono (add_le_add_left (scaled_mono hr hk) m)
  refine hmono.trans (not_lt.1 fun hgt => hfit ?_)
  by_cases hlarge : overflow ≤ roundRat (scaled r greatestBits + m)
  · exact lt_of_infinite hmax (unpack_pack_of_overflow hsum hlarge)
  · have hfew := toRat?_pack hsum (abs_lt.2
      ⟨(abs_lt.1 (abs_lt_overflow hmax)).1.trans hgt, not_le.1 hlarge⟩)
    exact (lt_iff_toRat hmax hfew).2 hgt

/-- A scale of which the greatest draw is not above `max` keeps all draws in the range. -/
theorem uniformAt_between (hmin : toRat? min = some m) (hmax : toRat? max = some M) (hle : m ≤ M)
    (hscale : toRat? scale = some r) (hr : 0 ≤ r)
    (hfit : r = 0 ∨ ¬ max < scale * greatestFraction + min) {k : ℕ} (hk : k ≤ greatestBits) :
    ∃ p, toRat? (uniformAt min scale k) = some p ∧ m ≤ p ∧ p ≤ M := by
  have hm : roundRat m = m := (denotes_toModel hmin).roundRat_eq
  have hlow : m ≤ roundRat (scaled r k + m) :=
    hm.symm.trans_le (roundRat_mono (le_add_of_nonneg_left (scaled_nonneg hr k)))
  have hhigh : roundRat (scaled r k + m) ≤ M := by
    rcases hfit with rfl | hfit
    · rw [scaled, mul_zero, roundRat_zero, zero_add, hm]
      exact hle
    · exact roundRat_scaled_le hmin hmax hscale hr hfit hk
  have hsum := denotes_add (denotes_toModel (toRat?_scaled hscale hr hk)) (denotes_toModel hmin)
  refine ⟨_, toRat?_pack hsum (abs_lt.2 ⟨?_, ?_⟩), hlow, hhigh⟩
  · exact lt_of_lt_of_le (abs_lt.1 (abs_lt_overflow hmin)).1 hlow
  · exact lt_of_le_of_lt hhigh (abs_lt.1 (abs_lt_overflow hmax)).2

/-- The length of a range that is not empty is positive, so its bits are those of a number. -/
theorem length_bits (hmin : toRat? min = some m) (hmax : toRat? max = some M) (hlt : m < M)
    (hfinite : ((max - min) / greatestFraction).isFinite = true) :
    ((max - min) / greatestFraction).toBits.toNat < infinityBits := by
  obtain ⟨l, hl⟩ := exists_toRat?_iff.2 hfinite
  refine toBits_lt_of_pos hl ?_
  have hdiff := denotes_sub (denotes_toModel hmax) (denotes_toModel hmin)
  have hpos := roundRat_sub_pos hmin hmax hlt
  have hg := toRat?_fraction (le_refl greatestBits)
  rw [← greatestFraction_eq] at hg
  by_cases hlarge : overflow ≤ roundRat (M - m)
  · -- An infinite length would make the quotient infinite.
    have hinfinite : (max - min).toModel.unpack = .infinity .positive :=
      unpack_pack_of_overflow hdiff hlarge
    have hnone : toRat? ((max - min) / greatestFraction) = none := by
      show rat? (Float.Model.pack (UnpackedFloat.div Format.binary64 (max - min).toModel.unpack
        greatestFraction.toModel.unpack)).unpack = none
      rw [hinfinite]
      rfl
    exact absurd (hnone.symm.trans hl) (by simp)
  · have hd : toRat? (max - min) = some (roundRat (M - m)) :=
      toRat?_pack hdiff (by rwa [abs_of_pos hpos, ← not_le])
    have hquotient := denotes_div hd hg (by norm_num [greatestBits])
    rw [eq_of_toRat?_pack hquotient hl]
    have hone : (greatestBits : ℚ) * 2 ^ (-52 : ℤ) ≤ 1 := by norm_num [greatestBits]
    have hle : roundRat (M - m) ≤ roundRat (M - m) / (greatestBits * 2 ^ (-52 : ℤ)) :=
      le_div_self hpos.le (by norm_num [greatestBits]) hone
    have := roundRat_mono hle
    rw [hdiff.roundRat_eq] at this
    exact lt_of_lt_of_le hpos this

variable {σ : Type} [RandomSource σ]

/-- A float that is drawn from a range lies in the range. -/
theorem float_between (hmin : toRat? min = some m) (hmax : toRat? max = some M) {s t : σ}
    (h : (Draw.float min max : Draw σ Float) s = .done (x, t)) :
    ∃ p, toRat? x = some p ∧ m ≤ p ∧ p ≤ m ⊔ M := by
  by_cases hlt : min < max
  · have hmM := (lt_iff_toRat hmin hmax).1 hlt
    by_cases hfinite : ((max - min) / greatestFraction).isFinite = true
    · obtain ⟨k, hk, rfl⟩ := (gives_float_bits hlt hfinite).of_done h
      obtain ⟨r, hr, hr0, hfit⟩ := exists_fitScale min max (length_bits hmin hmax hmM hfinite)
      rw [sup_eq_right.2 hmM.le]
      exact uniformAt_between hmin hmax hmM.le hr hr0 hfit hk
    · rw [Draw.float, if_pos hlt] at h
      dsimp only at h
      rw [if_neg hfinite] at h
      cases h
  · rw [Draw.float, if_neg hlt] at h
    obtain ⟨rfl, -⟩ := pure_eq_done.1 h
    exact ⟨m, hmin, le_rfl, le_sup_left⟩

/-- An integer of a range lies in the range. -/
theorem gives_integer_between (patience : Nat) (min max : Int64) :
    (integer patience min max : Draw σ Int64).Gives fun i => min ≤ i ∧ (min ≤ max → i ≤ max) := by
  have hleast := min.le_toInt
  have hgreatest := max.toInt_lt
  rw [integer]
  split
  · next hlt =>
    rw [Int64.lt_iff_toInt_lt] at hlt
    dsimp only
    split
    · next hfull =>
      -- The range of all words ends where the integers do.
      rw [Width.size] at hfull
      refine (gives_raw .word).bind fun word _ => gives_pure ⟨?_, fun _ => ?_⟩
      · rw [Int64.le_iff_toInt_le]
        have := (Int64.ofNat word).le_toInt
        omega
      · rw [Int64.le_iff_toInt_le]
        have := (Int64.ofNat word).toInt_lt
        omega
    · refine (gives_below patience .word (by omega)).bind fun k hk => gives_pure ?_
      have hlast : k < (max.toInt - min.toInt + 1).toNat := hk
      have hvalue : (Int64.ofInt (min.toInt + k)).toInt = min.toInt + k :=
        Int64.toInt_ofInt_of_le (by omega) (by omega)
      simp only [Int64.le_iff_toInt_le, hvalue]
      exact ⟨by omega, fun _ => by omega⟩
  · exact gives_pure ⟨Int64.le_refl min, id⟩

end NeuralArch.Draw
