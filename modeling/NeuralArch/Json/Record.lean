import NeuralArch.Json
import Std.Data.ExtTreeMap

/-!
# The meaning of JSON values

Readers from a JSON value to a typed one. All are partial: `none` means that
the value is not of the type.

* Numbers. An integer is a numeral of digits alone (`Json.integer?`); every other
  number is a float, which is what the reader of floats says. A float may be given
  as an integer, never the reverse.
* `asMap?` — objects as maps; of repeated keys the last counts.
* `record?` — objects with named fields. Other members are passed over, and of
  these only the syntax matters. An array of values in the order of the fields
  is the same record.
* `tagged?` — records that say by a tag which fields they have.
-/

namespace NeuralArch.Json

open Number

/-- How deep arrays and objects may be nested where their content matters. -/
def maxDepth : Nat := 127

/-! ## Plain values -/

def asText? : Json → Option String
  | string text => text
  | _ => none

/-- The integer of a number that is one. -/
def asInt? : Json → Option Int
  | number n => integer? n
  | _ => none

def asInt64? (j : Json) : Option Int64 := j.asInt?.bind toInt64?

/-- A count: a natural number that a 64-bit word holds. -/
def asCount? (j : Json) : Option Nat :=
  j.asInt?.bind fun i => if 0 ≤ i then some i.toNat else none

def asFloat? (floats : FloatReader) : Json → Option Float
  | number n => float? floats n
  | _ => none

/-! ## Lists and maps -/

def asList? {α : Type} (read : Json → Option α) : Json → Option (List α)
  | array items => items.mapM read
  | _ => none

/-- The members of an object, each with a key that is text. -/
def asMembers? : Json → Option (List (String × Json))
  | object members => members.mapM fun m => m.1.map fun k => (k, m.2)
  | _ => none

/-- The members of an object, read. -/
def readMembers? {α : Type} (read : Json → Option α) (members : List (String × Json)) :
    Option (Std.ExtTreeMap String α) :=
  (members.mapM fun m => (read m.2).map fun a => (m.1, a)).map (Std.ExtTreeMap.ofList ·)

/-- An object as a map. -/
def asMap? {α : Type} (read : Json → Option α) (j : Json) : Option (Std.ExtTreeMap String α) :=
  j.asMembers?.bind (readMembers? read)

/-! ## Records -/

/-- The one value of a field: `some none` if the field is missing, `none` if it is
repeated. -/
def field? (members : List (String × Json)) (name : String) : Option (Option Json) :=
  match members.filter (·.1 == name) with
  | [] => some none
  | [m] => some (some m.2)
  | _ => none

/-- The values of named fields, in the order of the names. -/
def record? (names : List String) : Json → Option (List (Option Json))
  | array items =>
    if items.length ≤ names.length then
      some (items.map some ++ List.replicate (names.length - items.length) none)
    else none
  | j => j.asMembers?.bind fun members => names.mapM (field? members)

/-- A record that says what it is: its tag, and the record without the tag. The tag is a
member of the object, or the first item of the array. All of it matters: it must be settled,
and nested no deeper than `room`. -/
def tagged? (floats : FloatReader) (room : Nat) (tagName : String) (j : Json) :
    Option (String × Json) :=
  if j.depth ≤ room ∧ j.settled floats then
    match j with
    | array (tag :: items) => tag.asText?.map fun t => (t, array items)
    | object members => do
      let named ← asMembers? (object members)
      let tag ← (← field? named tagName)
      let t ← tag.asText?
      return (t, ofMembers (named.filter (·.1 != tagName)))
    | _ => none
  else none

end NeuralArch.Json
