import NeuralArch.Number.Numeral
import NeuralArch.Number.Shortest

/-!
# Floats as text

Three ways to write a float:

* `FloatStyle.numeral?` — by the shortest digits that read back, laid out as
  a `FloatStyle` says;
* `fixed` — with a given number of places;
* `oneDigit` — with one significant digit and a power of ten.

The last two round the exact value of the float, a half going to the even
neighbour. A float that is no number has no numeral: where one may be written,
its text is a matter of the writer (`FloatStyle.text`).
-/

namespace NeuralArch.Number

/-- How shortest digits are laid out. A number whose leading digit stands in the place `e`
is written without a power of ten if `plainFrom ≤ e ≤ plainTo`; a missing bound is no
bound. -/
structure FloatStyle where
  plainFrom : Option Int
  plainTo : Option Int
  /-- Whether a whole number without power of ten is written with `.0`. -/
  point : Bool
  /-- Whether a power of ten that is not negative has a plus sign. -/
  plus : Bool
  tie : Tie
deriving Repr

/-- `significand · 10 ^ scale` without a power of ten. With `point`, a whole number gets a
zero behind the point. -/
def plain (negative point : Bool) (significand : Nat) (scale : Int) : Numeral :=
  if 0 ≤ scale then
    ⟨negative, digitsOfNat (significand * Nat.pow 10 scale.toNat), if point then ['0'] else [], none⟩
  else
    let places := (-scale).toNat
    let digits := digitsOfNat significand
    let padded := List.replicate (places + 1 - digits.length) '0' ++ digits
    ⟨negative, padded.take (padded.length - places), padded.drop (padded.length - places), none⟩

/-- `significand · 10 ^ scale` with one digit before the point and a power of ten. -/
def scientific (negative : Bool) (significand : Nat) (scale : Int) : Numeral :=
  let digits := digitsOfNat significand
  let place := scale + (digits.length - 1 : Nat)
  ⟨negative, digits.take 1, digits.drop 1,
    some (decide (place < 0), digitsOfNat place.natAbs)⟩

namespace FloatStyle

/-- The shortest digits of a magnitude, laid out. -/
def layout (s : FloatStyle) (negative : Bool) (m : Magnitude) : Numeral :=
  let (significand, scale) := shortest s.tie m
  let place := scale + ((digitsOfNat significand).length - 1 : Nat)
  if s.plainFrom.all (· ≤ place) && s.plainTo.all (place ≤ ·) then
    plain negative s.point significand scale
  else scientific negative significand scale

/-- The numeral of a finite float. -/
def numeral? (s : FloatStyle) (x : Float) : Option Numeral :=
  match FloatClass.of x with
  | .finite negative m => some (s.layout negative m)
  | _ => none

/-- The text of any float. -/
def text (s : FloatStyle) (x : Float) : String :=
  match FloatClass.of x with
  | .nan => "NaN"
  | .infinite negative => if negative then "-inf" else "inf"
  | .finite negative m => String.ofList ((s.layout negative m).text s.plus)

end FloatStyle

/-- A float with `places` digits behind the point. -/
def fixed (places : Nat) (x : Float) : String :=
  match FloatClass.of x with
  | .nan => "NaN"
  | .infinite negative => if negative then "-inf" else "inf"
  | .finite negative m =>
    let (num, den) := m.inUnits (-(places : Int))
    String.ofList ((plain negative false (roundDiv num den) (-(places : Int))).text false)

/-- A float with one significant digit and a power of ten. Rounding may reach ten, which is
one in the next place. -/
def oneDigit (x : Float) : String :=
  match FloatClass.of x with
  | .nan => "NaN"
  | .infinite negative => if negative then "-inf" else "inf"
  | .finite negative m =>
    let numeral :=
      if m.mantissa = 0 then scientific negative 0 0
      else
        let place := m.leadingPlace
        let (num, den) := m.inUnits place
        let digit := roundDiv num den
        if digit = 10 then scientific negative 1 (place + 1) else scientific negative digit place
    String.ofList (numeral.text false)

end NeuralArch.Number
