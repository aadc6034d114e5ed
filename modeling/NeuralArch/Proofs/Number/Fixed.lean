import NeuralArch.Number.FloatText
import NeuralArch.Proofs.Number.Parts

/-!
# Floats written with a fixed number of places

The digits of a float that is written with a fixed number of places are its
number in units of the last place, rounded to the nearest integer.  So of two
floats the greater one has the greater digits.

* `fixedDigits?` — the digits, read as one number; `fixed_of_fixedDigits?`.
* `fixedDigits?_mono` — they keep the order.
-/

namespace NeuralArch.Number

/-! ## Digits -/

/-- The digits of a positive float that is written with some places, as one number. -/
def fixedDigits? (places : Nat) (x : Float) : Option Nat :=
  match FloatClass.of x with
  | .finite false m =>
    let (num, den) := m.inUnits (-(places : Int))
    some (roundDiv num den)
  | _ => none

/-- What is written follows from the digits. -/
theorem fixed_of_fixedDigits? {places : ℕ} {x : Float} {n : ℕ}
    (h : fixedDigits? places x = some n) :
    fixed places x = String.ofList ((plain false false n (-(places : Int))).text false) := by
  unfold fixedDigits? at h
  unfold fixed
  split at h
  · next hclass =>
    rw [hclass]
    obtain rfl := Option.some.inj h
    rfl
  · simp at h

theorem inUnits_neg (m : Magnitude) (places : ℕ) :
    (((m.inUnits (-(places : ℤ))).1 : ℚ) / (m.inUnits (-(places : ℤ))).2) =
      m.toRat * 10 ^ places := by
  obtain ⟨c, hc, hnum, hden⟩ := exists_inUnits m (-(places : ℤ))
  rw [hnum, hden, mul_div_mul_right _ _ hc.ne', zpow_neg, zpow_natCast, div_inv_eq_mul]

theorem fixedDigits?_eq {places : ℕ} {x : Float} {p : ℚ} (h : toRat? x = some p) (hp : 0 < p) :
    fixedDigits? places x = some (roundEven (p * 10 ^ places)).toNat := by
  obtain ⟨negative, m, hclass, rfl⟩ := classOf_of_toRat? h
  have hm := m.toRat_nonneg
  cases negative with
  | true =>
    rw [if_pos rfl] at hp
    linarith
  | false =>
    unfold fixedDigits?
    rw [hclass]
    dsimp only
    rw [if_neg Bool.false_ne_true, ← inUnits_neg,
      ← roundDiv_eq_roundEven (m.inUnits_pos _), Int.toNat_natCast]

/-- The greater float has the greater digits. -/
theorem fixedDigits?_mono {places : ℕ} {x y : Float} {p q : ℚ} {m n : ℕ}
    (hx : toRat? x = some p) (hy : toRat? y = some q) (hp : 0 < p) (hpq : p ≤ q)
    (hm : fixedDigits? places x = some m) (hn : fixedDigits? places y = some n) : m ≤ n := by
  rw [fixedDigits?_eq hx hp] at hm
  rw [fixedDigits?_eq hy (lt_of_lt_of_le hp hpq)] at hn
  obtain rfl := Option.some.inj hm
  obtain rfl := Option.some.inj hn
  exact Int.toNat_le_toNat (roundEven_mono (mul_le_mul_of_nonneg_right hpq (by positivity)))

end NeuralArch.Number
