import NeuralArch.Generator.Expansion
import NeuralArch.Layout.Tidy
import NeuralArch.Random.KeyStream

/-!
# Generation

Descriptions from a generator: the tidy text of an expansion, with what was
counted on the way.

* `Generator.expand` — the expansion of any symbol.
* `Generator.generate` — the expansion of the grammar's start symbol, if it
  leaves any text; `generateSeeded` with a source of its own.
* `Generator.generateMany` — several in a row from one source.
-/

namespace NeuralArch.Generator

open Layout

variable {σ : Type} [RandomSource σ]

/-- How much an expansion may take: how many offers of the source for one draw, and how deep a
descent. -/
structure Limits where
  patience : Nat
  descent : Nat
deriving DecidableEq, Repr

/-- Limits that nothing reaches which comes to an end in practice. -/
def Limits.ample : Limits := ⟨1000000, 1000000⟩

/-- What an expansion writes, mark by mark and as tidy text, with its counters. -/
structure Expansion where
  marks : List Mark
  text : String
  stats : Stats
deriving DecidableEq, Repr

/-- The state that an expansion starts from. -/
def start (g : Generator) (source : σ) : State σ where
  source := source
  marks := []
  page := Page.empty g.config.indentWidth
  stats := Stats.zero
  layerType := none

/-- What is left when an expansion is done: the tidy text, the counters and the source. -/
def finish (s : State σ) : Expansion × σ :=
  (⟨s.marks.reverse, String.ofList (tidy s.page.text), s.stats⟩, s.source)

/-- The expansion of a symbol that has a rule. -/
def expand (g : Generator) (limits : Limits) (name : String) (depth maxDepth : UInt64)
    (source : σ) : Except GrammarError (Outcome (Expansion × σ)) := do
  let _ ← g.grammar.rule name
  return do
    let (_, s) ← symbol g limits.patience maxDepth.toNat limits.descent name depth.toNat none
      (g.start source)
    return finish s

/-- The expansion of the start symbol. There is none without a rule, or without text. -/
def generate (g : Generator) (limits : Limits) (maxDepth : UInt64) (source : σ) :
    Outcome (Option Expansion × σ) :=
  match g.grammar.start with
  | none => return (none, source)
  | some root =>
    match g.expand limits root 0 maxDepth source with
    | .error _ => return (none, source)
    | .ok run => do
      let (e, source) ← run
      return (if e.text.isEmpty then none else some e, source)

/-- A description from a seed. -/
def generateSeeded (g : Generator) (limits : Limits) (maxDepth : UInt64) (seed : UInt64) :
    Outcome (Option Expansion) := do
  let (e, _) ← g.generate limits maxDepth (KeyStream.ofSeed seed)
  return e

/-- The texts of a number of expansions in a row, those without text left out. -/
def generateMany (g : Generator) (limits : Limits) (maxDepth : UInt64) :
    Nat → σ → Outcome (List String × σ)
  | 0, source => return ([], source)
  | n + 1, source => do
    let (e, source) ← g.generate limits maxDepth source
    let (texts, source) ← generateMany g limits maxDepth n source
    return ((e.map Expansion.text).toList ++ texts, source)

end NeuralArch.Generator
