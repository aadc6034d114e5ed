import NeuralArch.Architecture.OfTree
import NeuralArch.Tree.OfTokens
import NeuralArch.Validation

/-!
# Checking and compiling

The whole way from a text or a tree to its diagnostics, or to its
architecture. An architecture is made only of a tree that the rule table has
nothing to say against.

* `check`, `checkText` — the diagnostics, in the order of their places.
* `compile`, `compileText` — the architecture, or why there is none.
-/

namespace NeuralArch

/-- Why a text has no architecture. -/
inductive CompileError
  /-- It cannot be read. -/
  | unreadable (e : SyntaxError)
  /-- It breaks rules; the diagnostics are in the order of their places. -/
  | invalid (diagnostics : List Diagnostic)
  /-- Its tree cannot be reduced. -/
  | uninterpretable (e : InterpretError)
deriving DecidableEq, Repr

def CompileError.message : CompileError → String
  | unreadable e => e.message
  | invalid ds => "Architecture has " ++ toString ds.length ++ " semantic error(s)"
  | uninterpretable e => "Interpretation failed: " ++ e.message

namespace RuleTable

/-- The diagnostics of a tree in the order of their places; those of one place keep the order
in which they were found. -/
def check (r : RuleTable) (t : Tree) : List Diagnostic :=
  (r.validate t).mergeSort fun d e => d.pos.atMost e.pos

/-- The architecture of a tree without diagnostics. -/
def compile (r : RuleTable) (t : Tree) : Except CompileError Architecture :=
  match r.check t with
  | [] =>
    match Architecture.ofTree t with
    | .ok a => .ok a
    | .error e => .error (.uninterpretable e)
  | ds => .error (.invalid ds)

/-- The diagnostics of a text. -/
def checkText (r : RuleTable) (text : String) : Except SyntaxError (List Diagnostic) :=
  (Tree.ofText text).map r.check

/-- The architecture of a text without diagnostics. -/
def compileText (r : RuleTable) (text : String) : Except CompileError Architecture :=
  match Tree.ofText text with
  | .error e => .error (.unreadable e)
  | .ok t => r.compile t

end RuleTable

end NeuralArch
