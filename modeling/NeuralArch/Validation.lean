import NeuralArch.Diagnostic
import NeuralArch.Rules
import NeuralArch.Tree

/-!
# Validation

A tree against a rule table. The walk visits every node once, in source
order, and reports all it finds; it stops for nothing, except that a hidden
layer of an unknown type is reported once and not looked into.

* `violation?` — whether the text of a number breaks the range of its
  parameter.
* `validate` — every diagnostic of a tree, in tree order.
-/

namespace NeuralArch

namespace RuleTable

/-- How the text of a number breaks the range of a parameter. -/
def violation? (r : RuleTable) (param text : String) : Option Diagnostic.Cause :=
  match r.range? param with
  | none => none
  | some (.int min) =>
    match Number.readInt64? text with
    | none => some (.notInteger param text)
    | some v => if min ≤ v then none else some (.tooSmall param v min)
  | some (.float min max) =>
    match Number.readFloat? text with
    | none => some (.notNumber param text)
    | some v =>
      let upper := (ParamRange.float min max).upper
      if min ≤ v ∧ v < upper then none else some (.outside param v min upper)

/-- The diagnostics of a name token with its number token, if there is one. -/
def checkRange (r : RuleTable) (name : Token) : Option Token → List Diagnostic
  | none => []
  | some value =>
    match r.violation? name.value value.value with
    | none => []
    | some cause => [⟨cause, name.pos⟩]

/-- The name token of a parameter's node, with its value token if that is a number. A
parameter without a name token in front says nothing. -/
def paramParts? : List Tree → Option (Token × Option Token)
  | .leaf name :: rest =>
    some (name, (rest[1]?.bind Tree.token?).filter (·.kind.isNumber))
  | _ => none

/-- The diagnostics of a parameter outside hidden layers: only its range counts. -/
def checkParam (r : RuleTable) (children : List Tree) : List Diagnostic :=
  match paramParts? children with
  | none => []
  | some (name, value) => r.checkRange name value

/-- The diagnostics of a parameter of a hidden layer. A parameter that the layer's type does
not admit is reported for that alone. -/
def checkLayerParam (r : RuleTable) (layer : String) (children : List Tree) : List Diagnostic :=
  match paramParts? children, r.allowed? layer with
  | some (name, value), some allowed =>
    if allowed.contains name.value then r.checkRange name value
    else [⟨.notAllowed name.value layer, name.pos⟩]
  | _, _ => []

mutual

/-- The diagnostics of a tree inside a hidden layer of the given type, or outside hidden
layers. -/
def visit (r : RuleTable) (layer : Option String) : Tree → List Diagnostic
  | .leaf _ => []
  | .node .hiddenLayer cs =>
    match (Tree.findInList? .layerType cs).bind Tree.firstToken? with
    | none => visitAll r none cs
    | some type =>
      if (r.allowed? type.value).isNone then [⟨.unknownLayer type.value, type.pos⟩]
      else visitAll r (some type.value) cs
  | .node .layerParam cs =>
    match layer with
    | none => []
    | some layer => r.checkLayerParam layer cs
  | .node .inputParam cs => r.checkParam cs
  | .node .outputParam cs => r.checkParam cs
  | .node _ cs => visitAll r layer cs

/-- The diagnostics of several trees. -/
def visitAll (r : RuleTable) (layer : Option String) : List Tree → List Diagnostic
  | [] => []
  | t :: ts => visit r layer t ++ visitAll r layer ts

end

/-- Every diagnostic of a tree, in tree order. -/
def validate (r : RuleTable) (t : Tree) : List Diagnostic := r.visit none t

/-- Whether a tree has no diagnostic. -/
def isValid (r : RuleTable) (t : Tree) : Bool := (r.validate t).isEmpty

end RuleTable

end NeuralArch
