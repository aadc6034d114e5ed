import NeuralArch.Number.FloatText
import NeuralArch.Number.Read

/-!
# JSON values

A JSON value as it is written: members keep their order and repetitions, and
a number is a numeral, so that an integer and a float of the same value stay
apart. What a value *means* is for its readers to say (`Json.Record`).

A string literal may hold half of a surrogate pair, which is correct syntax
and denotes no text; such a literal is `string none`.

An integer is what its digits say. Which float any other numeral becomes is left
open, since the nearest one takes some effort to find and not every reader takes
it: a `FloatReader` decides, and all readers of values are given one.

* `Json.ofInt64`, `Json.ofFloat`, `Json.ofText` — values to write.
* `Json.integer?`, `Json.float?` — the integer and the float of a numeral.
* `Json.depth` — how deep arrays and objects are nested.
* `Json.settled` — whether every literal inside has a meaning: each string is
  text, and each number is within the range of floats.
-/

namespace NeuralArch

open Number

/-- A JSON value. -/
inductive Json
  | null
  | bool (b : Bool)
  | number (n : Numeral)
  | string (text : Option String)
  | array (items : List Json)
  | object (members : List (Option String × Json))

namespace Json

/-- Floats in JSON: from `0.00001` up to sixteen digits without a power of ten, always with a
point; otherwise the power of ten has its sign. -/
def floatStyle : FloatStyle where
  plainFrom := some (-5)
  plainTo := some 15
  point := true
  plus := true
  tie := .even

def ofText (s : String) : Json := string (some s)

def ofInt64 (i : Int64) : Json := number (Numeral.ofInt i.toInt)

/-- A float, or `null` if it is no number. -/
def ofFloat (x : Float) : Json := ((floatStyle.numeral? x).map number).getD null

/-- An object from its members. -/
def ofMembers (members : List (String × Json)) : Json :=
  object (members.map fun m => (some m.1, m.2))

/-! ## Numbers -/

/-- What floats are read by: the float of a numeral, or none if the numeral is out of range. -/
abbrev FloatReader := Numeral → Option Float

/-- The integer of a numeral: one of digits alone, other than `-0`, in the range of 64-bit
integers or words. -/
def integer? (n : Numeral) : Option Int :=
  if n.isInteger && !(n.negative && n.toInt == 0) then
    if leastInteger ≤ n.toInt ∧ n.toInt < wordCount then some n.toInt else none
  else none

/-- The float of a numeral. An integer becomes the nearest float, whatever the reader. -/
def float? (floats : FloatReader) (n : Numeral) : Option Float :=
  if (integer? n).isSome then some n.toFloat else floats n

/-! ## Values as a whole -/

mutual

/-- How deep arrays and objects are nested; zero without any. -/
def depth : Json → Nat
  | array items => depthOfItems items + 1
  | object members => depthOfMembers members + 1
  | _ => 0

def depthOfItems : List Json → Nat
  | [] => 0
  | j :: js => max j.depth (depthOfItems js)

def depthOfMembers : List (Option String × Json) → Nat
  | [] => 0
  | (_, j) :: ms => max j.depth (depthOfMembers ms)

end

section

variable (floats : FloatReader)

mutual

/-- Whether every string is text and every number is within the range of floats. -/
def settled : Json → Bool
  | null => true
  | bool _ => true
  | number n => (float? floats n).isSome
  | string text => text.isSome
  | array items => settledItems items
  | object members => settledMembers members

def settledItems : List Json → Bool
  | [] => true
  | j :: js => j.settled && settledItems js

def settledMembers : List (Option String × Json) → Bool
  | [] => true
  | (k, j) :: ms => k.isSome && j.settled && settledMembers ms

end

end

end Json

end NeuralArch
