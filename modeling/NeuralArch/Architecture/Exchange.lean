import NeuralArch.Architecture
import NeuralArch.Json.Record
import NeuralArch.Json.Printer
import NeuralArch.Json.Reader

/-!
# Architectures as JSON

An architecture is a record of `input_layer`, `hidden_layers` and
`output_layer`. Parameters are members of an object, sorted by name; a hidden
layer has its type among them, under `type`. The JSON value alone tells what a
parameter's value is: an integer, a float, a text, or a list of integers; which
float is for the reader of floats to say.

* `Architecture.toJson`, `Architecture.ofJson?` and, on texts,
  `Architecture.render`, `Architecture.parse?`.
-/

namespace NeuralArch

namespace ParamValue

def toJson : ParamValue → Json
  | int i => Json.ofInt64 i
  | float x => Json.ofFloat x
  | text s => Json.ofText s
  | list items => .array (items.map Json.ofInt64)

/-- Reads a value. A number that is no 64-bit integer is a float. -/
def ofJson? (floats : Json.FloatReader) (j : Json) : Option ParamValue :=
  match j with
  | .number _ =>
    match j.asInt64? with
    | some i => some (int i)
    | none => (j.asFloat? floats).map float
  | .string _ => j.asText?.map text
  | .array _ => (j.asList? Json.asInt64?).map list
  | _ => none

end ParamValue

namespace ParamMap

/-- The parameters as members, sorted by name. -/
def toMembers (params : ParamMap) : List (String × Json) :=
  params.toList.map fun (name, v) => (name, v.toJson)

def ofJson? (floats : Json.FloatReader) (j : Json) : Option ParamMap :=
  j.asMap? (ParamValue.ofJson? floats)

end ParamMap

namespace Layer

def toJson (l : Layer) : Json :=
  Json.ofMembers (("type", Json.ofText l.type) :: ParamMap.toMembers l.params)

/-- Reads a layer: an object with exactly one `type`, all other members being parameters. -/
def ofJson? (floats : Json.FloatReader) (j : Json) : Option Layer := do
  let members ← j.asMembers?
  let type ← (← Json.field? members "type")
  let type ← type.asText?
  let params ← Json.readMembers? (ParamValue.ofJson? floats) (members.filter (·.1 != "type"))
  return ⟨type, params⟩

end Layer

namespace Architecture

def toJson (a : Architecture) : Json :=
  Json.ofMembers
    [("input_layer", Json.ofMembers (ParamMap.toMembers a.input)),
     ("hidden_layers", .array (a.hidden.map Layer.toJson)),
     ("output_layer", Json.ofMembers (ParamMap.toMembers a.output))]

def ofJson? (floats : Json.FloatReader) (j : Json) : Option Architecture :=
  match j.record? ["input_layer", "hidden_layers", "output_layer"] with
  | some [some input, some hidden, some output] => do
    let input ← ParamMap.ofJson? floats input
    let hidden ← hidden.asList? (Layer.ofJson? floats)
    let output ← ParamMap.ofJson? floats output
    return ⟨input, hidden, output⟩
  | _ => none

/-- The JSON text of an architecture. -/
def render (a : Architecture) : String := a.toJson.text

/-- The architecture of a JSON text. -/
def parse? (floats : Json.FloatReader) (text : String) : Option Architecture :=
  (Json.parse? text).bind (ofJson? floats)

end Architecture

end NeuralArch
