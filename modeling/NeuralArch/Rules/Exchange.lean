import NeuralArch.Rules
import NeuralArch.Json.Record
import NeuralArch.Json.Printer
import NeuralArch.Json.Reader

/-!
# Rule tables as JSON

A table is a record of two maps, `layer_params` and `ranges`; a range says by
its `kind` whether it is one of integers or of floats. Writing and reading
back loses only what JSON cannot say: a bound that is no number is written as
`null`, which is no minimum, and as a maximum means that there is none.

* `RuleTable.toJson`, `RuleTable.ofJson?` and, on texts,
  `RuleTable.render`, `RuleTable.parse?`.
-/

namespace NeuralArch

namespace ParamRange

def toJson : ParamRange → Json
  | int min => Json.ofMembers [("kind", Json.ofText "int"), ("min", Json.ofInt64 min)]
  | float min max =>
    Json.ofMembers
      [("kind", Json.ofText "float"), ("min", Json.ofFloat min),
       ("max", (max.map Json.ofFloat).getD .null)]

/-- Reads an optional bound: missing, `null`, or a number. -/
def maximum? (floats : Json.FloatReader) : Option Json → Option (Option Float)
  | none => some none
  | some .null => some none
  | some j => (j.asFloat? floats).map some

/-- Reads a range that is nested no deeper than `room`. -/
def ofJson? (floats : Json.FloatReader) (room : Nat) (j : Json) : Option ParamRange :=
  match j.tagged? floats room "kind" with
  | some ("int", r) =>
    match r.record? ["min"] with
    | some [some min] => min.asInt64?.map int
    | _ => none
  | some ("float", r) =>
    match r.record? ["min", "max"] with
    | some [some min, max] => do
      let min ← min.asFloat? floats
      let max ← maximum? floats max
      return float min max
    | _ => none
  | _ => none

end ParamRange

namespace RuleTable

def toJson (r : RuleTable) : Json :=
  Json.ofMembers
    [("layer_params",
      Json.ofMembers (r.layers.toList.map fun (layer, params) =>
        (layer, .array (params.toList.map Json.ofText)))),
     ("ranges",
      Json.ofMembers (r.ranges.toList.map fun (param, range) => (param, range.toJson)))]

/-- Reads a set of names. -/
def names? (j : Json) : Option (Std.ExtTreeSet String) :=
  (j.asList? Json.asText?).map (Std.ExtTreeSet.ofList ·)

def ofJson? (floats : Json.FloatReader) (j : Json) : Option RuleTable :=
  match j.record? ["layer_params", "ranges"] with
  | some [some layers, some ranges] => do
    let layers ← layers.asMap? names?
    let ranges ← ranges.asMap? (ParamRange.ofJson? floats (Json.maxDepth - 2))
    return ⟨layers, ranges⟩
  | _ => none

/-- The JSON text of a table. -/
def render (r : RuleTable) : String := r.toJson.text

/-- The table of a JSON text. -/
def parse? (floats : Json.FloatReader) (text : String) : Option RuleTable :=
  (Json.parse? text).bind (ofJson? floats)

end RuleTable

end NeuralArch
