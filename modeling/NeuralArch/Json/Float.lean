import NeuralArch.Json

/-!
# Floats by float arithmetic

The reader of floats that the program runs with. It is quick rather than exact:
it takes as many digits as a 64-bit word holds, makes that number a float, and
multiplies or divides it by a power of ten. Each of these steps rounds, so that
what it reads may lie beside the nearest float, and a float that is printed need
not be read as itself.

* `FloatReader.arithmetic` — the reader.
-/

namespace NeuralArch.Json

open Number

/-- Appends digits to a number as long as a 64-bit word holds the result. The digits that are
left follow the number. -/
def takeDigits (n : Nat) : List Char → Nat × List Char
  | [] => (n, [])
  | d :: ds =>
    if 10 * n + digitValue d < wordCount then takeDigits (10 * n + digitValue d) ds
    else (n, d :: ds)

/-- The greatest place of a power of ten that is a float. -/
def greatestPlace : Nat := 308

def powerOfTen (place : Nat) : Float := nearest false 1 place

/-- Divides by the greatest power of ten, some times or until nothing is left. -/
def divideDown (x : Float) : Nat → Float
  | 0 => x
  | n + 1 => if x == 0 then x else divideDown (x / powerOfTen greatestPlace) n

/-- A float times a power of ten, if that is within range. A division that takes several steps
rounds at each. -/
def scaleBy? (x : Float) : Int → Option Float
  | .ofNat place =>
    if x == 0 then some x
    else if greatestPlace < place then none
    else
      let y := x * powerOfTen place
      if y.isInf then none else some y
  | .negSucc n =>
    some (divideDown x (n / greatestPlace) / powerOfTen (n % greatestPlace + 1))

/-- The greatest power of ten that is taken as it is written, `2 ^ 31 - 1`. -/
def greatestPower : Nat := 0x7fffffff

/-- The reader that works by float arithmetic. -/
def FloatReader.arithmetic : FloatReader := fun n =>
  let (whole, spilled) := takeDigits 0 n.whole
  let (significand, unread) := takeDigits whole n.fraction
  let x := nearest false significand 0
  let scale : Int := spilled.length - (n.fraction.length - unread.length : Nat)
  let magnitude? := match n.power with
    | none => scaleBy? x scale
    | some (negative, digits) =>
      let power := natOfDigits digits
      if greatestPower < power then
        if negative ∨ significand = 0 then some 0 else none
      else scaleBy? x (if negative then scale - power else scale + power)
  magnitude?.map fun y => if n.negative then -y else y

end NeuralArch.Json
