import NeuralArch.Number.Numeral
import NeuralArch.Number.Binary

/-!
# Numbers from text

Two readers of whole texts, each with a sign at will:

* `readInt?` — digits, in the range of 64-bit integers (`readInt64?`) or of
  64-bit words (`readWord?`);
* `readFloat?` — digits with a point and a power of ten at will, or the
  names of the values that have no digits, in any case.

Neither skips blanks. A decimal becomes the nearest float (`nearest`), which
is an infinity for a number beyond the range of floats and a zero for one too
close to zero.
-/

namespace NeuralArch.Number

/-! ## Nearest floats -/

/-- The nearest float to `significand · 10 ^ scale`. Numbers that are out of range by their
count of digits alone are settled without computing their power of ten. -/
def nearest (negative : Bool) (significand : Nat) (scale : Int) : Float :=
  let place := scale + (digitsOfNat significand).length
  let magnitude : Float :=
    if significand = 0 ∨ place < -400 then 0
    else if 400 < place then infinity
    else if 0 ≤ scale then Float.ofScientific (significand * Nat.pow 10 scale.toNat) false 0
    else Float.ofScientific significand true (-scale).toNat
  if negative then -magnitude else magnitude

/-- The nearest float to a numeral. -/
def Numeral.toFloat (n : Numeral) : Float := nearest n.negative n.significand n.scale

/-! ## Integers -/

/-- A sign at the front of a text: whether it is a minus, and what follows. -/
def splitSign : List Char → Bool × List Char
  | '-' :: cs => (true, cs)
  | '+' :: cs => (false, cs)
  | cs => (false, cs)

/-- A text of digits, and at least one. -/
def isDigits (cs : List Char) : Bool := !cs.isEmpty && cs.all Char.isDigit

/-- Reads digits with a sign at will. -/
def readInt? (cs : List Char) : Option Int :=
  let (negative, digits) := splitSign cs
  if isDigits digits then
    some (if negative then -(natOfDigits digits : Int) else natOfDigits digits)
  else none

/-- The least of the 64-bit integers, `-2 ^ 63`. -/
def leastInteger : Int := -0x8000000000000000

/-- How many 64-bit words there are, `2 ^ 64`. -/
def wordCount : Nat := 0x10000000000000000

/-- The 64-bit integer of the same value. -/
def toInt64? (i : Int) : Option Int64 :=
  if leastInteger ≤ i ∧ i < -leastInteger then some (Int64.ofInt i) else none

/-- Reads an integer that 64 bits hold. -/
def readInt64? (text : String) : Option Int64 := (readInt? text.toList).bind toInt64?

/-- Reads a natural number that 64 bits hold. A minus is refused, before zero too. -/
def readWord? (text : String) : Option UInt64 :=
  match splitSign text.toList with
  | (true, _) => none
  | (false, digits) =>
    if isDigits digits ∧ natOfDigits digits < wordCount then
      some (UInt64.ofNat (natOfDigits digits))
    else none

/-! ## Floats -/

/-- A power of ten at the front of a text, to its end: nothing, or `e` with digits and a sign
at will. -/
def readPower? : List Char → Option (Option (Bool × List Char))
  | [] => some none
  | c :: cs =>
    if c == 'e' || c == 'E' then
      let (negative, digits) := splitSign cs
      if isDigits digits then some (some (negative, digits)) else none
    else none

/-- An unsigned decimal: digits before or behind a point, and a power of ten at will. -/
def readDecimal? (cs : List Char) : Option Numeral :=
  let whole := cs.takeWhile Char.isDigit
  let (fraction, rest) := match cs.dropWhile Char.isDigit with
    | '.' :: cs => (cs.takeWhile Char.isDigit, cs.dropWhile Char.isDigit)
    | cs => ([], cs)
  if whole.isEmpty && fraction.isEmpty then none
  else (readPower? rest).map fun power => ⟨false, whole, fraction, power⟩

/-- A text with its ASCII letters in lower case. -/
def lowerCase (cs : List Char) : List Char := cs.map Char.toLower

/-- Reads a float. -/
def readFloat? (text : String) : Option Float :=
  let (negative, cs) := splitSign text.toList
  let signed (x : Float) : Float := if negative then -x else x
  if lowerCase cs = "nan".toList then some notANumber
  else if lowerCase cs = "inf".toList ∨ lowerCase cs = "infinity".toList then
    some (signed infinity)
  else (readDecimal? cs).map fun n => signed n.toFloat

end NeuralArch.Number
