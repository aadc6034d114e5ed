import Std.Data.ExtTreeMap

/-!
# Architectures

What a description means: the parameters of the input block, the hidden
layers in order, and the parameters of the output block, with native values.
Parameter names and layer types are plain text here, since architectures also
come from elsewhere.
-/

namespace NeuralArch

/-- The value of a parameter. -/
inductive ParamValue
  | int (i : Int64)
  | float (x : Float)
  | text (s : String)
  | list (items : List Int64)
deriving DecidableEq, Repr

namespace ParamValue

/-- The integer of a value that is one. -/
def int? : ParamValue → Option Int64
  | int i => some i
  | _ => none

end ParamValue

/-- Values by parameter name. -/
abbrev ParamMap := Std.ExtTreeMap String ParamValue

/-- A hidden layer. -/
structure Layer where
  type : String
  params : ParamMap
deriving DecidableEq

/-- A network: input, hidden layers, output. -/
structure Architecture where
  input : ParamMap
  hidden : List Layer
  output : ParamMap
deriving DecidableEq

namespace Architecture

/-- The shape of the input as the input block gives it: the length of a sequence, if given,
and the number of features. There is none without an integer number of features. -/
def inputShape? (a : Architecture) : Option (Option Int64 × Int64) := do
  let features ← a.input["features"]?
  let features ← features.int?
  return (a.input["sequence_length"]?.bind ParamValue.int?, features)

end Architecture

end NeuralArch
