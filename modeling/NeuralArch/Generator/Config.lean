import Std.Data.ExtTreeMap

/-!
# Configuration of a generator

What a generator does beyond expanding a grammar: how it indents, which names
it fills in with sampled values, and which symbols it expands by a strategy
instead. A strategy writes alternatives of another symbol, its item, each at
most once and in grammar order: all of them, those of some parameters, or a
random choice among those that fit the layer being written.
-/

namespace NeuralArch.Generator

/-- How a list of parameters is written. -/
inductive Strategy
  /-- Every alternative of the item. -/
  | allRequired (item : String)
  /-- The alternatives of the required parameters, and those of the optional ones with some
  probability each. -/
  | output (item : String) (required optional : List String) (probability : Float)
  /-- From `min` to `max` of the alternatives that the current layer admits. -/
  | subset (item : String) (min max : Nat)
deriving DecidableEq, Repr

/-- The symbol whose alternatives a strategy writes. -/
def Strategy.item : Strategy → String
  | allRequired item => item
  | output item _ _ _ => item
  | subset item _ _ => item

/-- The configuration of a generator. -/
structure Config where
  /-- Spaces for each level of indentation. -/
  indentWidth : Nat
  /-- The symbol whose expansion names the type of the layer being written. -/
  layerTypeSymbol : String
  /-- The names that are filled in with sampled values. -/
  placeholders : List String
  /-- The symbols that are expanded by a strategy. -/
  strategies : Std.ExtTreeMap String Strategy
  /-- For some layer types the parameter that is always chosen, where it is admitted. -/
  anchors : Std.ExtTreeMap String String
deriving DecidableEq

namespace Config

def standardStrategies : List (String × Strategy) :=
  [("input_params", .allRequired "input_param"),
   ("output_params", .output "output_param" ["units", "activation"] ["dropout"] 0.5),
   ("layer_params", .subset "layer_param" 2 5)]

def standardAnchors : List (String × String) :=
  [("dense", "units"), ("lstm", "units"), ("gru", "units"), ("esn", "units"),
   ("conv1d", "filters"), ("tcn", "filters")]

/-- The configuration for the built-in grammar. -/
def standard : Config where
  indentWidth := 4
  layerTypeSymbol := "layer_type"
  placeholders := ["INT", "FLOAT"]
  strategies := Std.ExtTreeMap.ofList standardStrategies
  anchors := Std.ExtTreeMap.ofList standardAnchors

instance : Inhabited Config := ⟨standard⟩

end Config

end NeuralArch.Generator
