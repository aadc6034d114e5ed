import NeuralArch.Number.Read
import Std.Data.ExtTreeMap
import Std.Data.ExtTreeSet

/-!
# Rule tables

What a valid architecture may contain, as data: for each layer type the
parameters it admits, and for each parameter the range of its numbers. A
layer type that is not listed is unknown, which is not the same as one that
admits nothing; a parameter without a range admits every number.

* `RuleTable.allow`, `remove`, `setRange` change a table;
  `allowed?`, `isAllowed?`, `range?` read it.
* `RuleTable.standard` — the table of the built-in layers.

Tables are maps and sets up to extension, so two tables are equal exactly when
they answer alike.
-/

namespace NeuralArch

open Number

/-- The numbers a parameter admits. -/
inductive ParamRange
  /-- Integers from `min` on. -/
  | int (min : Int64)
  /-- Numbers from `min` on and below `max`; without `max`, all below infinity. -/
  | float (min : Float) (max : Option Float)
deriving DecidableEq, Repr

namespace ParamRange

/-- The number a range stays below. -/
def upper : ParamRange → Float
  | int _ => infinity
  | float _ max => max.getD infinity

end ParamRange

/-- Parameters by layer type, and ranges by parameter. -/
structure RuleTable where
  layers : Std.ExtTreeMap String (Std.ExtTreeSet String)
  ranges : Std.ExtTreeMap String ParamRange
deriving DecidableEq

namespace RuleTable

/-- The table that knows no layer type and no range. -/
def empty : RuleTable := ⟨∅, ∅⟩

/-- The parameters a layer type admits; `none` if the type is unknown. -/
def allowed? (r : RuleTable) (layer : String) : Option (Std.ExtTreeSet String) := r.layers[layer]?

/-- Whether a layer type admits a parameter; `none` if the type is unknown. -/
def isAllowed? (r : RuleTable) (layer param : String) : Option Bool :=
  (r.allowed? layer).map (·.contains param)

/-- The range of a parameter, if it has one. -/
def range? (r : RuleTable) (param : String) : Option ParamRange := r.ranges[param]?

/-- Lets a layer type admit more parameters. The type is known afterwards, even if the list is
empty. -/
def allow (r : RuleTable) (layer : String) (params : List String) : RuleTable :=
  { r with layers := r.layers.insert layer (((r.allowed? layer).getD ∅).insertMany params) }

/-- Forgets a layer type. -/
def remove (r : RuleTable) (layer : String) : RuleTable :=
  { r with layers := r.layers.erase layer }

/-- Gives a parameter a range, in place of the one it has. -/
def setRange (r : RuleTable) (param : String) (range : ParamRange) : RuleTable :=
  { r with ranges := r.ranges.insert param range }

/-! ## The built-in layers -/

private def poolingParams : List String := ["pool_size", "strides", "padding"]

private def normParams : List String := ["axis", "epsilon"]

private def recurrentParams : List String :=
  ["activation", "dropout", "kernel_init", "l1", "l2", "recurrent_dropout", "units"]

/-- The parameters of the built-in layers. -/
def standardLayers : List (String × List String) :=
  [("avg_pooling", poolingParams),
   ("max_pooling", poolingParams),
   ("global_pooling", ["pool_type"]),
   ("batch_norm", ["axis", "momentum", "epsilon"]),
   ("instance_norm", normParams),
   ("layer_norm", normParams),
   ("conv1d",
    ["activation", "dilation_rate", "dropout", "filters", "kernel_init", "kernel_size", "l1", "l2",
     "padding", "strides"]),
   ("tcn",
    ["activation", "dilations", "dropout", "filters", "kernel_init", "kernel_size", "l1", "l2"]),
   ("attention", ["dropout", "heads", "units"]),
   ("esn", ["activation", "input_scaling", "leak_rate", "spectral_radius", "units"]),
   ("gru", recurrentParams),
   ("lstm", recurrentParams),
   ("dense", ["activation", "dropout", "kernel_init", "l1", "l2", "units"])]

/-- The ranges of their parameters: rates below one, weights that are not negative, a positive
epsilon, and counts from one on. -/
def standardRanges : List (String × ParamRange) :=
  (["dropout", "recurrent_dropout", "leak_rate", "momentum"].map (·, .float 0 (some 1)))
    ++ (["l1", "l2", "spectral_radius", "input_scaling"].map (·, .float 0 none))
    ++ [("epsilon", .float 1e-7 none)]
    ++ (["units", "filters", "heads", "features", "sequence_length", "kernel_size", "strides",
         "pool_size", "dilation_rate"].map (·, .int 1))

/-- The table of the built-in layers. -/
def standard : RuleTable :=
  let layers := standardLayers.foldl (fun r (layer, params) => r.allow layer params) empty
  standardRanges.foldl (fun r (param, range) => r.setRange param range) layers

instance : Inhabited RuleTable := ⟨standard⟩

/-! ## What a change changes -/

@[simp] theorem allowed?_setRange (r : RuleTable) (p l : String) (range : ParamRange) :
    (r.setRange p range).allowed? l = r.allowed? l := rfl

@[simp] theorem range?_allow (r : RuleTable) (l p : String) (ps : List String) :
    (r.allow l ps).range? p = r.range? p := rfl

@[simp] theorem range?_remove (r : RuleTable) (l p : String) :
    (r.remove l).range? p = r.range? p := rfl

theorem range?_setRange (r : RuleTable) (p q : String) (range : ParamRange) :
    (r.setRange p range).range? q = if p = q then some range else r.range? q := by
  simp [setRange, range?, Std.ExtTreeMap.getElem?_insert, Std.LawfulEqCmp.compare_eq_iff_eq]

theorem allowed?_remove (r : RuleTable) (l m : String) :
    (r.remove l).allowed? m = if l = m then none else r.allowed? m := by
  simp [remove, allowed?, Std.ExtTreeMap.getElem?_erase, Std.LawfulEqCmp.compare_eq_iff_eq]

theorem allowed?_allow (r : RuleTable) (l m : String) (ps : List String) :
    (r.allow l ps).allowed? m =
      if l = m then some (((r.allowed? l).getD ∅).insertMany ps) else r.allowed? m := by
  simp [allow, allowed?, Std.ExtTreeMap.getElem?_insert, Std.LawfulEqCmp.compare_eq_iff_eq]

end RuleTable

end NeuralArch
