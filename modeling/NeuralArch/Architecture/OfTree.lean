import NeuralArch.Architecture
import NeuralArch.Number.Read
import NeuralArch.Tree

/-!
# From a tree to an architecture

A tree is reduced from the leaves up: every child before its parent, children
from left to right, and each kind of node by one rule. The first token or
node without a reduction is the error. Trees may be ill-formed; on those that
were read from text the only error is an integer that 64 bits do not hold.

* `Tree.reduce` — what a subtree contributes to the node above it.
* `Architecture.ofTree` — the architecture of a tree.
-/

namespace NeuralArch

namespace InterpretError

/-- What a node's rule wants of its children. -/
inductive Wanted
  | root | keyword | integers | assignment | layerType | order | complete
deriving DecidableEq, Repr

def Wanted.text : Wanted → String
  | root => "expected an 'ann' root"
  | keyword => "expected a single keyword"
  | integers => "expected integers"
  | assignment => "expected 'name = value;'"
  | layerType => "expected a layer type first"
  | order => "expected input, hidden layers, output"
  | complete => "missing input or output layer"

end InterpretError

/-- Why a tree has no architecture. -/
inductive InterpretError
  /-- A node whose children do not fit its kind, with the place of its first token. -/
  | unexpectedShape (kind : NodeKind) (wanted : InterpretError.Wanted) (pos : Option Position)
  /-- The text of a number token that denotes none. -/
  | badNumber (text : String) (pos : Position)
deriving DecidableEq, Repr

namespace InterpretError

def message : InterpretError → String
  | unexpectedShape kind wanted pos =>
    let pos := pos.getD ⟨0, 0⟩
    "unexpected shape for " ++ kind.name ++ " at line " ++ toString pos.line ++ ", column "
      ++ toString pos.column ++ ": " ++ wanted.text
  | badNumber text pos =>
    "invalid number '" ++ text ++ "' at line " ++ toString pos.line ++ ", column "
      ++ toString pos.column

end InterpretError

/-- What a subtree contributes to the node above it. -/
inductive Reduced
  /-- Punctuation, a structure word or a parameter name. -/
  | token (t : Token)
  | value (v : ParamValue)
  | param (name : String) (v : ParamValue)
  | input (params : ParamMap)
  | output (params : ParamMap)
  | hidden (layer : Layer)
  | architecture (a : Architecture)

namespace Reduced

/-- A name with its value. -/
def param? : Reduced → Option (String × ParamValue)
  | param name v => some (name, v)
  | _ => none

def isToken : Reduced → Bool
  | token _ => true
  | _ => false

/-- The map of the parameters among some contributions. Of repeated names the last counts. -/
def params (items : List Reduced) : ParamMap := Std.ExtTreeMap.ofList (items.filterMap param?)

end Reduced

/-- The value of a number token; other tokens stand for their keyword or for themselves. -/
def Token.reduce (t : Token) : Except InterpretError Reduced :=
  match t.kind with
  | .int =>
    match Number.readInt64? t.value with
    | some i => .ok (.value (.int i))
    | none => .error (.badNumber t.value t.pos)
  | .float =>
    match Number.readFloat? t.value with
    | some x => .ok (.value (.float x))
    | none => .error (.badNumber t.value t.pos)
  | k =>
    match k.keyword? with
    | some word => .ok (.value (.text word))
    | none => .ok (.token t)

namespace Architecture

open InterpretError (Wanted)

/-- The integers of a dilation list; punctuation is passed over. -/
def dilations : List Reduced → Except Wanted (List Int64)
  | [] => .ok []
  | .token _ :: items => dilations items
  | .value (.int i) :: items =>
    match dilations items with
    | .ok is => .ok (i :: is)
    | .error w => .error w
  | _ :: _ => .error .integers

/-- Hidden layers, then the output, then nothing. -/
def hiddenAndOutput : List Reduced → Except Wanted (List Layer × ParamMap)
  | [] => .error .complete
  | .hidden l :: items =>
    match hiddenAndOutput items with
    | .ok (ls, output) => .ok (l :: ls, output)
    | .error w => .error w
  | [.output params] => .ok ([], params)
  | _ :: _ => .error .order

/-- The input, then hidden layers, then the output. -/
def assemble : List Reduced → Except Wanted Architecture
  | [] => .error .complete
  | .input params :: items =>
    match hiddenAndOutput items with
    | .ok (hidden, output) => .ok ⟨params, hidden, output⟩
    | .error w => .error w
  | _ :: _ => .error .order

/-- The reduction of a node by its kind, from those of its children. -/
def combine : NodeKind → List Reduced → Except Wanted Reduced
  | .layerType, items | .activationFn, items | .kernelInitializer, items =>
    match items with
    | [.value (.text s)] => .ok (.value (.text s))
    | _ => .error .keyword
  | .dilationList, items =>
    match dilations items with
    | .ok is => .ok (.value (.list is))
    | .error w => .error w
  | .layerParam, items | .inputParam, items | .outputParam, items =>
    match items with
    | .token name :: _ :: .value v :: _ =>
      match name.kind.param? with
      | some p => .ok (.param p.word v)
      | none => .error .assignment
    | _ => .error .assignment
  | .inputLayer, items => .ok (.input (Reduced.params items))
  | .outputLayer, items => .ok (.output (Reduced.params items))
  | .hiddenLayer, items =>
    match items with
    | .value (.text type) :: items => .ok (.hidden ⟨type, Reduced.params items⟩)
    | _ => .error .layerType
  | .ann, items =>
    match assemble (items.filter (!·.isToken)) with
    | .ok a => .ok (.architecture a)
    | .error w => .error w

end Architecture

namespace Tree

mutual

/-- What a tree contributes to the node above it. -/
def reduce : Tree → Except InterpretError Reduced
  | leaf t => t.reduce
  | node kind cs =>
    match reduceAll cs with
    | .error e => .error e
    | .ok items =>
      match Architecture.combine kind items with
      | .ok r => .ok r
      | .error w => .error (.unexpectedShape kind w ((firstTokenOfList? cs).map Token.pos))

/-- What several trees contribute. -/
def reduceAll : List Tree → Except InterpretError (List Reduced)
  | [] => .ok []
  | t :: ts =>
    match reduce t with
    | .error e => .error e
    | .ok r =>
      match reduceAll ts with
      | .error e => .error e
      | .ok rs => .ok (r :: rs)

end

end Tree

/-- The architecture of a tree. -/
def Architecture.ofTree (t : Tree) : Except InterpretError Architecture :=
  match t.reduce with
  | .error e => .error e
  | .ok (.architecture a) => .ok a
  | .ok _ =>
    .error (.unexpectedShape (t.kind?.getD .ann) .root (t.firstToken?.map Token.pos))

end NeuralArch
