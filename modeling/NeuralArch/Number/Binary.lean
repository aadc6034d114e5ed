/-!
# Binary numbers, exactly

A finite float is a sign and a magnitude `mantissa · 2 ^ exponent`. This
module takes floats apart, and measures a magnitude against powers of ten in
exact arithmetic on naturals: no float operation is used, so nothing rounds
that is not meant to.

* `Magnitude.ofBits`, `FloatClass.of` — the parts of a float.
* `Magnitude.inUnits` — a magnitude counted in units of `10 ^ k`, as a
  quotient of naturals.
* `roundDiv` — a quotient to the nearest natural, a half going to the even one.
-/

namespace NeuralArch.Number

/-- The float above all numbers. -/
def infinity : Float := 1 / 0

/-- The float that is no number. -/
def notANumber : Float := 0 / 0

/-- A nonnegative number `mantissa · 2 ^ exponent`. -/
structure Magnitude where
  mantissa : Nat
  exponent : Int
deriving DecidableEq, Repr

/-- The exponent of the magnitudes that lie closest together. -/
def leastExponent : Int := -1074

/-- How many fractions a float can have, `2 ^ 52`. -/
def fractionCount : Nat := 0x10000000000000

/-- How many exponent fields a float can have, `2 ^ 11`. The last one marks infinities and what
is no number. -/
def fieldCount : Nat := 0x800

/-- What a float is. -/
inductive FloatClass
  | nan
  | infinite (negative : Bool)
  | finite (negative : Bool) (magnitude : Magnitude)
deriving DecidableEq, Repr

namespace Magnitude

/-- The magnitude that the low 63 bits of a finite float denote. Without exponent bits, the
mantissa has no leading one. -/
def ofBits (bits : Nat) : Magnitude :=
  let field := bits / fractionCount % fieldCount
  let fraction := bits % fractionCount
  if field = 0 then ⟨fraction, leastExponent⟩
  else ⟨fractionCount + fraction, leastExponent + (field - 1 : Nat)⟩

/-- The number of units of `10 ^ k` in `mantissa · 2 ^ exponent`, as numerator and
denominator. -/
def inUnits (m : Magnitude) (k : Int) : Nat × Nat :=
  (m.mantissa * Nat.pow 2 m.exponent.toNat * Nat.pow 10 (-k).toNat,
   Nat.pow 2 (-m.exponent).toNat * Nat.pow 10 k.toNat)

theorem inUnits_pos (m : Magnitude) (k : Int) : 0 < (m.inUnits k).2 :=
  Nat.mul_pos (Nat.pow_pos (by decide)) (Nat.pow_pos (by decide))

/-- Whether a magnitude is at least `10 ^ k`. -/
def reaches (m : Magnitude) (k : Int) : Bool :=
  let (num, den) := m.inUnits k
  den ≤ num

/-- The greatest `k` below `n - 324` such that the magnitude is at least `10 ^ k`. -/
def placeBelow (m : Magnitude) : Nat → Int
  | 0 => -324
  | n + 1 => if m.reaches (n - 324) then n - 324 else placeBelow m n

/-- The place of the leading digit of a nonzero magnitude: `10 ^ k ≤ m < 10 ^ (k + 1)`. No
finite float reaches `10 ^ 309`. -/
def leadingPlace (m : Magnitude) : Int := m.placeBelow 633

end Magnitude

/-- What a float is, by its bits. -/
def FloatClass.of (x : Float) : FloatClass :=
  let bits := x.toBits.toNat
  let negative := fieldCount * fractionCount ≤ bits
  if bits / fractionCount % fieldCount = fieldCount - 1 then
    if bits % fractionCount = 0 then .infinite negative else .nan
  else .finite negative (Magnitude.ofBits bits)

/-- A quotient to the nearest natural. A half goes to the even neighbour. -/
def roundDiv (num den : Nat) : Nat :=
  let below := num / den
  let excess := 2 * (num % den)
  if excess < den then below
  else if den < excess then below + 1
  else if below % 2 = 0 then below
  else below + 1

end NeuralArch.Number
