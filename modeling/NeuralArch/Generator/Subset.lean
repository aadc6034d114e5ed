import NeuralArch.Generator.Basic

/-!
# Choosing parameters for a layer

A layer gets some of the alternatives that its type admits, as many as a
random number between two bounds says, in grammar order. A layer type may have
an anchor, a parameter that is among the chosen ones whenever it is admitted
and any are chosen.

* `admitted` — the indices of the alternatives that fit a layer.
* `chooseSubset` — the indices of the chosen ones, in ascending order.
-/

namespace NeuralArch.Generator

variable {σ : Type} [RandomSource σ]

/-- Whether a layer admits an alternative. For a layer whose type the rule table does not
know, every alternative is admitted; otherwise it has to assign a parameter of the type. -/
def admits (allowed : Option (Std.ExtTreeSet String)) (p : Production) : Bool :=
  match allowed with
  | none => true
  | some names => p.paramName?.any names.contains

/-- The indices of the alternatives that a layer admits, in ascending order. -/
def admitted (g : Generator) (layerType : Option String) (ps : List Production) : List Nat :=
  let allowed := layerType.bind g.rules.allowed?
  (List.range ps.length).filter fun i => ps[i]?.any (admits allowed)

/-- The index of the layer's anchor, if it is among the given ones. -/
def anchor? (g : Generator) (layerType : Option String) (ps : List Production)
    (available : List Nat) : Option Nat := do
  let layer ← layerType
  let param ← g.config.anchors[layer]?
  available.find? fun i => (ps[i]?.bind Production.paramName?) == some param

/-- Draws `count` of the available indices; the anchor is the first of them. -/
def chooseIndices (patience : Nat) (available : List Nat) (anchor : Option Nat) (count : Nat) :
    Draw σ (List Nat) := do
  let pool := match anchor with
    | some a => available.filter (· != a)
    | none => available
  if count < anchor.toList.length then Draw.fail .negativeCount
  else do
    let wanted := Nat.min (count - anchor.toList.length) pool.length
    let drawn ← Draw.indices patience pool.length wanted
    return (anchor.toList ++ drawn.filterMap (pool[·]?)).mergeSort

/-- Draws the indices of the alternatives for a layer. -/
def chooseSubset (g : Generator) (patience : Nat) (layerType : Option String)
    (ps : List Production) (min max : Nat) : Draw σ (List Nat) := do
  let available := g.admitted layerType ps
  let high := Nat.min max available.length
  let low := Nat.min min high
  let extra ← Draw.below patience .word (high - low + 1)
  let count := low + extra
  if count = 0 then return []
  else chooseIndices patience available (g.anchor? layerType ps available) count

end NeuralArch.Generator
