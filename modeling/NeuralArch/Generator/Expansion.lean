import NeuralArch.Generator.Subset
import NeuralArch.Layout.Page

/-!
# Expansion

A symbol is expanded by writing one of its alternatives, element by element:
literals as they are, placeholders as sampled values, and symbols by expanding
them in turn. Self-recursion is bounded: each step from a symbol's alternative
to the same symbol adds to the depth, and at the bound only alternatives that
are not self-recursive are drawn. A rule that has none is cut off there.
Symbols with a strategy are expanded by it.

Mutual recursion has no bound of its own, so an expansion may descend for
ever. It is computed with a bound on the descent, and ends as `unfinished`
when it would go below.

The depth is a word, and may run past the last one. The other numbers have no
bound: to fill a word, a counter takes more steps than there is time for, and a
text more memory than there is.

* `State` — the source, what is written, the counters, and the type of the
  layer being written.
* `symbol` — the expansion of a symbol.
-/

namespace NeuralArch.Generator

open Layout

/-- What an expansion counts. -/
structure Stats where
  /-- Steps from an alternative of a symbol to the symbol itself. -/
  selfRecursions : Nat
  /-- The greatest depth of self-recursion. -/
  deepest : Nat
  /-- Rules that were cut off at the bound. -/
  truncations : Nat
deriving DecidableEq, Repr

def Stats.zero : Stats := ⟨0, 0, 0⟩

/-- Counts a step of self-recursion that leads to a depth. -/
def Stats.recur (s : Stats) (depth : Nat) : Stats :=
  { s with selfRecursions := s.selfRecursions + 1, deepest := Nat.max s.deepest depth }

/-- Counts a rule that was cut off. -/
def Stats.truncate (s : Stats) : Stats := { s with truncations := s.truncations + 1 }

/-- What changes while an expansion is written. -/
structure State (σ : Type) where
  source : σ
  /-- The marks written, the last one first. -/
  marks : List Mark
  /-- The page with these marks. -/
  page : Page
  stats : Stats
  /-- The type of the layer being written, once one has been. -/
  layerType : Option String

/-- A step of an expansion. -/
abbrev Expand (σ : Type) := StateT (State σ) Outcome

namespace Expand

variable {σ : Type}

/-- Stops at a fault. -/
def fail {α : Type} (f : Fault) : Expand σ α := fun _ => .fault f

/-- Draws from the source. -/
def draw {α : Type} (d : Draw σ α) : Expand σ α := fun s => do
  let (a, source) ← d s.source
  return (a, { s with source })

/-- Writes a mark. -/
def write (m : Mark) : Expand σ Unit :=
  modify fun s => { s with marks := m :: s.marks, page := s.page.mark m }

/-- Counts. -/
def count (f : Stats → Stats) : Expand σ Unit := modify fun s => { s with stats := f s.stats }

end Expand

variable {σ : Type} [RandomSource σ]

open Expand

/-! ## Elements -/

/-- Writes a terminal, or a sampled value in its place. -/
def terminal (g : Generator) (patience : Nat) (name : String) (param : Option String) :
    Expand σ Unit :=
  if g.config.placeholders.contains name then do
    let value ← draw (g.sampling.sample patience name param)
    write (.value value)
  else write (.word name)

/-- Goes one level deeper. -/
def deeper (g : Generator) (depth : Nat) : Expand σ Nat :=
  match g.next? depth with
  | some below => return below
  | none => fail .depthOverflow

/-- Writes elements of an alternative of `self`. To expand a symbol, `expand` is given its
name, the depth, and the parameter being written. -/
def elements (g : Generator) (patience : Nat)
    (expand : String → Nat → Option String → Expand σ Unit) (self : String) (depth : Nat)
    (param : Option String) : List Element → Expand σ Unit
  | [] => return ()
  | .literal text :: es => do
    write (Mark.ofLiteral text)
    elements g patience expand self depth param es
  | .terminal name :: es => do
    terminal g patience name param
    elements g patience expand self depth param es
  | .symbol name :: es => do
    if name = self then
      let below ← deeper g depth
      count (·.recur below)
      expand name below param
    else expand name depth param
    elements g patience expand self depth param es

/-- Writes an alternative of `self`. One that assigns a parameter sets the parameter for what
is inside. -/
def production (g : Generator) (patience : Nat)
    (expand : String → Nat → Option String → Expand σ Unit) (self : String) (depth : Nat)
    (param : Option String) (p : Production) : Expand σ Unit :=
  elements g patience expand self depth (p.paramName?.or param) p.elements

/-- Writes several alternatives of `self`. -/
def productions (g : Generator) (patience : Nat)
    (expand : String → Nat → Option String → Expand σ Unit) (self : String) (depth : Nat)
    (param : Option String) : List Production → Expand σ Unit
  | [] => return ()
  | p :: ps => do
    production g patience expand self depth param p
    productions g patience expand self depth param ps

/-! ## Choices -/

/-- The alternative of an index. -/
def alternative (r : Rule) (i : Nat) : Expand σ Production :=
  match r.productions[i]? with
  | some p => return p
  | none => fail .noSuchAlternative

/-- Draws an alternative: any one below the bound, and one that is not self-recursive at the
bound. If there is none, the rule is cut off. -/
def chooseAlternative (patience maxDepth depth : Nat) (r : Rule) :
    Expand σ (Option Production) :=
  if r.isRecursive && maxDepth ≤ depth then do
    match ← draw (Draw.choose patience r.nonRecursive) with
    | some i => some <$> alternative r i
    | none =>
      count Stats.truncate
      return none
  else do
    let i ← draw (Draw.below patience .word r.productions.length)
    some <$> alternative r i

/-- The parameters of a strategy that are written: the required ones, and by chance the
optional ones. -/
def isWritten (required optional : List String) (probability : Float) (p : Production) :
    Draw σ Bool :=
  match p.paramName? with
  | none => return false
  | some name =>
    if required.contains name then return true
    else if optional.contains name then Draw.chance probability
    else return false

/-- A probability, with what lies outside zero and one taken for these. -/
def clamp (p : Float) : Float := if p < 0 then 0 else if 1 < p then 1 else p

/-- Writes those of the alternatives of an item that are required or come by chance. -/
def outputProductions (g : Generator) (patience : Nat)
    (expand : String → Nat → Option String → Expand σ Unit) (item : String) (depth : Nat)
    (param : Option String) (required optional : List String) (probability : Float) :
    List Production → Expand σ Unit
  | [] => return ()
  | p :: ps => do
    if ← draw (isWritten required optional probability p) then
      production g patience expand item depth param p
    outputProductions g patience expand item depth param required optional probability ps

/-- Expands by a strategy. An item without a rule is passed over. -/
def strategy (g : Generator) (patience : Nat)
    (expand : String → Nat → Option String → Expand σ Unit) (depth : Nat)
    (param : Option String) (s : Strategy) : Expand σ Unit :=
  match g.grammar.rule? s.item with
  | none => return ()
  | some r =>
    match s with
    | .allRequired item => productions g patience expand item depth param r.productions
    | .output item required optional probability =>
      outputProductions g patience expand item depth param required optional
        (clamp probability) r.productions
    | .subset item min max => do
      let layerType := (← get).layerType
      let chosen ← draw (g.chooseSubset patience layerType r.productions min max)
      let ps ← chosen.mapM (alternative r)
      productions g patience expand item depth param ps

/-- Writes something, and remembers its text as the type of the layer being written. -/
def asLayerType (body : Expand σ Unit) : Expand σ Unit := do
  let start := (← get).page.size
  body
  match (← get).page.textFrom? start with
  | some cs => modify fun s => { s with layerType := some (String.ofList (Text.trim cs)) }
  | none => fail .sliceOutside

/-! ## Symbols -/

/-- The expansion of a symbol at a depth of self-recursion, inside a parameter or outside of
any. The first number bounds the descent. A symbol without a rule is written in angle
brackets. -/
def symbol (g : Generator) (patience maxDepth : Nat) :
    Nat → String → Nat → Option String → Expand σ Unit
  | 0, _, _, _ => fun _ => .unfinished
  | n + 1, name, depth, param =>
    match g.grammar.rule? name, g.config.strategies[name]? with
    | none, _ => write (.word ("<" ++ name ++ ">"))
    | some _, some s => strategy g patience (symbol g patience maxDepth n) depth param s
    | some r, none => do
      match ← chooseAlternative patience maxDepth depth r with
      | none => return ()
      | some p =>
        let body := production g patience (symbol g patience maxDepth n) name depth param p
        if p.isEmpty then return ()
        else if name = g.config.layerTypeSymbol then asLayerType body
        else body

end NeuralArch.Generator
