import NeuralArch.Validation
import NeuralArch.Proofs.Syntax.Shape

/-!
# What validation looks at

On a description tree the walk comes down to one check for each parameter,
block by block: in the input and the output a range, in a hidden block first
the type of the layer, then for each parameter whether the type admits it, then
its range.

* `visit_endParam`, `visit_layerParam` — what is found at one parameter.
* `visit_endBlock`, `visit_hiddenBlock` — what is found in a block.
* `validate_network` — the findings of a description are those of its blocks,
  in order.
-/

namespace NeuralArch.Meaning

open NeuralArch.Tree
open Token Syntax

variable (r : RuleTable)

/-- The token of a value that is a number. -/
def numberToken? (value : Tree) : Option Token := value.token?.filter (·.kind.isNumber)

theorem visitAll_eq_flatMap (layer : Option String) (ts : List Tree) :
    r.visitAll layer ts = ts.flatMap (r.visit layer) := by
  induction ts with
  | nil => rw [RuleTable.visitAll, List.flatMap_nil]
  | cons t ts ih => rw [RuleTable.visitAll, List.flatMap_cons, ih]

theorem visit_leaf (layer : Option String) (t : Token) : r.visit layer (leaf t) = [] := by
  rw [RuleTable.visit]

/-! ## Parameters -/

/-- The findings at a parameter outside hidden blocks are those of its range. -/
theorem visit_endParam {b : Block} (hb : b ≠ .hidden) (layer : Option String)
    (name equals semicolon : Token) (value : Tree) :
    r.visit layer (node (paramKind b) [leaf name, leaf equals, value, leaf semicolon])
      = r.checkRange name (numberToken? value) := by
  cases b with
  | input => rw [paramKind, RuleTable.visit]; rfl
  | hidden => exact absurd rfl hb
  | output => rw [paramKind, RuleTable.visit]; rfl

/-- A parameter that a layer type does not admit is reported for that, any other one for
its range. -/
theorem visit_layerParam {type : String} {allowed : Std.ExtTreeSet String}
    (h : r.allowed? type = some allowed) (name equals semicolon : Token) (value : Tree) :
    r.visit (some type) (node .layerParam [leaf name, leaf equals, value, leaf semicolon])
      = if allowed.contains name.value then r.checkRange name (numberToken? value)
        else [⟨.notAllowed name.value type, name.pos⟩] := by
  have hparts : RuleTable.paramParts? [leaf name, leaf equals, value, leaf semicolon] =
      some (name, numberToken? value) := rfl
  rw [RuleTable.visit, RuleTable.checkLayerParam, hparts, h]

/-! ## Blocks -/

theorem visit_head {layer : Option String} {b : Block} {head : Tree}
    (h : HeadTree b head) : r.visit layer head = [] := by
  cases b with
  | input =>
    obtain ⟨t, -, rfl⟩ := h
    exact visit_leaf r layer t
  | hidden =>
    obtain ⟨t, -, rfl⟩ := h
    rw [RuleTable.visit, RuleTable.visitAll, RuleTable.visitAll, visit_leaf]
    · rfl
    all_goals simp
  | output =>
    obtain ⟨t, -, rfl⟩ := h
    exact visit_leaf r layer t

theorem visitAll_braces {layer : Option String} {b : Block} {head : Tree}
    (h : HeadTree b head) (lbrace rbrace : Token) (params : List Tree) :
    r.visitAll layer ([head, leaf lbrace] ++ params ++ [leaf rbrace])
      = params.flatMap (r.visit layer) := by
  simp [visitAll_eq_flatMap, visit_head r h, visit_leaf]

theorem visit_endBlock {layer : Option String} {b : Block} (hb : b ≠ .hidden) {head : Tree}
    (h : HeadTree b head) (lbrace rbrace : Token) (params : List Tree) :
    r.visit layer (node (blockKind b) ([head, leaf lbrace] ++ params ++ [leaf rbrace]))
      = params.flatMap (r.visit layer) := by
  rw [← visitAll_braces r h lbrace rbrace params]
  cases b with
  | input => rw [blockKind, RuleTable.visit] <;> simp
  | hidden => exact absurd rfl hb
  | output => rw [blockKind, RuleTable.visit] <;> simp

/-- A hidden block of an unknown type is reported once and not looked into. -/
theorem visit_hiddenBlock {layer : Option String} {type : Token}
    (h : type.kind.layer?.isSome = true) (lbrace rbrace : Token) (params : List Tree) :
    r.visit layer (node .hiddenLayer
        ([node .layerType [leaf type], leaf lbrace] ++ params ++ [leaf rbrace]))
      = if (r.allowed? type.value).isNone then [⟨.unknownLayer type.value, type.pos⟩]
        else params.flatMap (r.visit (some type.value)) := by
  have hfind : (findInList? .layerType
      ([node .layerType [leaf type], leaf lbrace] ++ params ++ [leaf rbrace])).bind
        firstToken? = some type := by
    simp [findInList?, find?, firstToken?, firstTokenOfList?]
  have hhead : HeadTree .hidden (node .layerType [leaf type]) := ⟨type, h, rfl⟩
  rw [RuleTable.visit, hfind]
  dsimp only
  rw [visitAll_braces r hhead]

/-! ## Descriptions -/

theorem validate_network (word lbrace rbrace : Token) (input output : Tree)
    (hidden : List Tree) :
    r.validate (node .ann ([leaf word, leaf lbrace, input] ++ hidden ++
        [output, leaf rbrace]))
      = r.visit none input ++ hidden.flatMap (r.visit none) ++ r.visit none output := by
  rw [RuleTable.validate, RuleTable.visit]
  · simp [visitAll_eq_flatMap, visit_leaf]
  all_goals simp

end NeuralArch.Meaning
