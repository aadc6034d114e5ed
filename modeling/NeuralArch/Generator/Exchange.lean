import NeuralArch.Generator.Config
import NeuralArch.Json.Record
import NeuralArch.Json.Reader

/-!
# Configurations from JSON

A configuration is a record in which every field may be missing; a missing
field has the value it has in the standard configuration. A strategy says by
its `strategy` which it is.
-/

namespace NeuralArch.Generator

/-- Reads a strategy that is nested no deeper than `room`. -/
def Strategy.ofJson? (floats : Json.FloatReader) (room : Nat) (j : Json) : Option Strategy :=
  match j.tagged? floats room "strategy" with
  | some ("all_required", r) =>
    match r.record? ["item"] with
    | some [some item] => item.asText?.map allRequired
    | _ => none
  | some ("output", r) =>
    match r.record? ["item", "required", "optional", "probability"] with
    | some [some item, some required, some optional, some probability] => do
      let item ← item.asText?
      let required ← required.asList? Json.asText?
      let optional ← optional.asList? Json.asText?
      let probability ← probability.asFloat? floats
      return output item required optional probability
    | _ => none
  | some ("subset", r) =>
    match r.record? ["item", "min", "max"] with
    | some [some item, some min, some max] => do
      let item ← item.asText?
      let min ← min.asCount?
      let max ← max.asCount?
      return subset item min max
    | _ => none
  | _ => none

namespace Config

/-- Reads a field, if it is there. -/
def orElse? {α : Type} (default : α) (read : Json → Option α) : Option Json → Option α
  | none => some default
  | some j => read j

def ofJson? (floats : Json.FloatReader) (j : Json) : Option Config :=
  match j.record?
    ["indent_width", "layer_type_symbol", "placeholders", "strategies", "anchors"] with
  | some [width, symbol, placeholders, strategies, anchors] => do
    let width ← orElse? standard.indentWidth Json.asCount? width
    let symbol ← orElse? standard.layerTypeSymbol Json.asText? symbol
    let placeholders ← orElse? standard.placeholders (·.asList? Json.asText?) placeholders
    let strategies ← orElse? standard.strategies
      (·.asMap? (Strategy.ofJson? floats (Json.maxDepth - 2))) strategies
    let anchors ← orElse? standard.anchors (·.asMap? Json.asText?) anchors
    return ⟨width, symbol, placeholders, strategies, anchors⟩
  | _ => none

/-- The configuration of a JSON text. -/
def parse? (floats : Json.FloatReader) (text : String) : Option Config :=
  (Json.parse? text).bind (ofJson? floats)

end Config

end NeuralArch.Generator
