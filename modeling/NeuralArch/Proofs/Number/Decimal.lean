import NeuralArch.Proofs.Number.Fixed
import NeuralArch.Proofs.Number.Written

/-!
# Decimals that are written and read back

A number in units of its last place is written with a point, and reading the
text gives the nearest float to the number.  So what is read back lies between
what is read back from a smaller and from a greater number.

* `decimalText` — the text.
* `decimalText_mem_float`, `readFloat?_decimalText` — it is a float, and which.
* `exists_nearest_le` — nearest floats keep the order.
* `readFloat?_decimalText_between` — so bounds of the number are bounds of the float.
-/

namespace NeuralArch.Number

open Lexing

/-- A number in units of the last of some places, with its point. -/
def decimalText (places n : Nat) : String :=
  String.ofList ((plain false false n (-(places : Int))).text false)

/-! ## Texts -/

/-- A decimal with a place behind its point is a float. -/
theorem decimalText_mem_float {places : Nat} (h : 0 < places) (n : Nat) :
    (decimalText places n).toList ∈ Lexing.float := by
  rw [decimalText, String.toList_ofList]
  exact plain_mem_float false h n

/-- What is read back is the nearest float. -/
theorem readFloat?_decimalText {places : Nat} (h : 0 < places) (n : Nat) :
    readFloat? (decimalText places n) = some (nearest false n (-(places : Int))) := by
  obtain ⟨whole, fraction, hplain, -, -, hlength, hvalue, -⟩ := exists_plain false false h n
  rw [decimalText, readFloat?_text (wellFormed_plain _ _ _ _), hplain]
  simp [Numeral.toFloat, Numeral.significand, Numeral.scale, hvalue, hlength]

/-! ## Nearest floats -/

/-- Nearest floats keep the order. -/
theorem exists_nearest_le {m n : Nat} (hmn : m ≤ n) (hn : n < 2 ^ 53) (places : Nat) :
    ∃ a b, toRat? (nearest false m (-(places : Int))) = some a ∧
      toRat? (nearest false n (-(places : Int))) = some b ∧ a ≤ b := by
  have hscale : (0 : ℚ) < 10 ^ (-(places : Int)) := zpow_pos (by norm_num) _
  have hle : (m : ℚ) * 10 ^ (-(places : Int)) ≤ n * 10 ^ (-(places : Int)) :=
    mul_le_mul_of_nonneg_right (by exact_mod_cast hmn) hscale.le
  have hm0 := decimal_nonneg m (-(places : Int))
  have hround : toNearest (m * 10 ^ (-(places : Int))) ≤ toNearest (n * 10 ^ (-(places : Int))) :=
    toNearest_mono hm0 hle
  -- The numbers behind the point are not greater than without it.
  have hsmall : toNearest (n * 10 ^ (-(places : Int))) < overflow := by
    have hone : (10 : ℚ) ^ (-(places : Int)) ≤ 1 :=
      zpow_le_one_of_nonpos₀ (by norm_num) (by omega)
    have hwhole : (n : ℚ) * 10 ^ (-(places : Int)) ≤ n :=
      mul_le_of_le_one_right (Nat.cast_nonneg n) hone
    have hexact : toNearest (n : ℚ) = n := by
      rw [← roundRat_of_nonneg (Nat.cast_nonneg n), roundRat_natCast hn]
    have hn' := toNearest_mono (hm0.trans hle) hwhole
    rw [hexact] at hn'
    exact lt_of_le_of_lt hn' (lt_of_abs_lt (natCast_lt_overflow hn))
  exact ⟨_, _, toRat?_nearest (lt_of_le_of_lt hround hsmall), toRat?_nearest hsmall, hround⟩

/-- What is read back lies between what is read back from a smaller and from a greater
number. -/
theorem readFloat?_decimalText_between {least greatest n : Nat} (hln : least ≤ n)
    (hng : n ≤ greatest) (hgreatest : greatest < 2 ^ 53) {places : Nat} (hplaces : 0 < places)
    {min upper : Float} (hmin : min ≤ nearest false least (-(places : Int)))
    (hupper : nearest false greatest (-(places : Int)) < upper) :
    ∃ x, readFloat? (decimalText places n) = some x ∧ min ≤ x ∧ x < upper := by
  obtain ⟨a, b, ha, hb, hab⟩ := exists_nearest_le hng hgreatest places
  obtain ⟨c, d, hc, hd, hcd⟩ := exists_nearest_le hln (lt_of_le_of_lt hng hgreatest) places
  exact ⟨_, readFloat?_decimalText hplaces n, le_of_toRat_le hc hd hcd hmin,
    lt_of_toRat_le ha hb hab hupper⟩

end NeuralArch.Number
