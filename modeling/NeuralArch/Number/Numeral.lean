/-!
# Numerals

A number as it is written: sign, digits, point and power of ten. A `Numeral`
is what a reader of numbers finds and what a printer of numbers decides on;
the characters follow from it (`Numeral.text`), and so does the number it
denotes, as a significand and a power of ten (`Numeral.significand`,
`Numeral.scale`).

* `natOfDigits`, `digitsOfNat` — digits and their value, inverse to each
  other on the digits of a number (`natOfDigits_digitsOfNat`).
-/

namespace NeuralArch.Number

/-! ## Digits -/

/-- The value of a decimal digit. -/
def digitValue (c : Char) : Nat := c.toNat - '0'.toNat

/-- The number a run of digits denotes. The empty run denotes zero. -/
def natOfDigits (ds : List Char) : Nat := ds.foldl (fun n d => 10 * n + digitValue d) 0

/-- The decimal digits of a number, without leading zeros; zero has one digit. -/
def digitsOfNat (n : Nat) : List Char := Nat.toDigits 10 n

@[simp] theorem natOfDigits_nil : natOfDigits [] = 0 := rfl

theorem natOfDigits_append_singleton (ds : List Char) (d : Char) :
    natOfDigits (ds ++ [d]) = 10 * natOfDigits ds + digitValue d := by
  simp [natOfDigits, List.foldl_append]

theorem digitValue_digitChar {n : Nat} (h : n < 10) : digitValue n.digitChar = n := by
  have : ∀ m < 10, digitValue (Nat.digitChar m) = m := by decide
  exact this n h

theorem natOfDigits_digitsOfNat (n : Nat) : natOfDigits (digitsOfNat n) = n := by
  induction n using Nat.strongRecOn with
  | ind n ih =>
    by_cases h : n < 10
    · rw [digitsOfNat, Nat.toDigits_of_lt_base h]
      simp [natOfDigits, digitValue_digitChar h]
    · have hn : n = 10 * (n / 10) + n % 10 := by omega
      have hd : digitsOfNat n = digitsOfNat (n / 10) ++ [Nat.digitChar (n % 10)] := by
        unfold digitsOfNat
        rw [Nat.toDigits_of_base_le (by decide) (by omega)]
      rw [hd, natOfDigits_append_singleton, ih _ (by omega), digitValue_digitChar (by omega)]
      omega

/-! ## Numerals -/

/-- A written number. An empty `fraction` means that no point is written. -/
structure Numeral where
  negative : Bool
  whole : List Char
  fraction : List Char
  /-- The power of ten, if one is written: whether it is negative, and its digits. -/
  power : Option (Bool × List Char)
deriving DecidableEq, Repr

namespace Numeral

/-- The numeral of an integer. -/
def ofInt (i : Int) : Numeral := ⟨decide (i < 0), digitsOfNat i.natAbs, [], none⟩

/-- Whether nothing but a sign and digits is written. -/
def isInteger (n : Numeral) : Bool := n.fraction.isEmpty && n.power.isNone

/-- All digits before the power, read as one number. -/
def significand (n : Numeral) : Nat := natOfDigits (n.whole ++ n.fraction)

/-- The power of ten that the significand is to be multiplied by. -/
def scale (n : Numeral) : Int :=
  let written : Int := match n.power with
    | none => 0
    | some (true, digits) => -(natOfDigits digits : Int)
    | some (false, digits) => natOfDigits digits
  written - n.fraction.length

/-- The integer a numeral of digits alone denotes. -/
def toInt (n : Numeral) : Int :=
  if n.negative then -(natOfDigits n.whole : Int) else natOfDigits n.whole

/-- The characters of a numeral. With `plus`, a power of ten that is not negative has a plus
sign. -/
def text (plus : Bool) (n : Numeral) : List Char :=
  (if n.negative then ['-'] else []) ++ n.whole
    ++ (if n.fraction.isEmpty then [] else '.' :: n.fraction)
    ++ (match n.power with
        | none => []
        | some (true, digits) => 'e' :: '-' :: digits
        | some (false, digits) => if plus then 'e' :: '+' :: digits else 'e' :: digits)

@[simp] theorem toInt_ofInt (i : Int) : (ofInt i).toInt = i := by
  rw [toInt, ofInt, natOfDigits_digitsOfNat]
  by_cases h : i < 0
  · rw [if_pos (by simpa using h)]
    omega
  · rw [if_neg (by simpa using h)]
    omega

end Numeral

end NeuralArch.Number
