import NeuralArch.Architecture.Exchange
import NeuralArch.Command
import NeuralArch.Compilation
import NeuralArch.Generator
import NeuralArch.Rules.Exchange

/-!
# Running commands

A command reads the files it names and comes to one result: it prints
something, has something to be saved, or fails. How files are read is left to
the caller, as an effect, and so is how floats are read; everything else is
computed here.

* `Command.run` — the result of a command.
* `Command.Result.status`, `printed`, `complaint` — the exit status and the
  texts on the two standard streams that a result shows as.
-/

namespace NeuralArch

namespace Command

/-- Why a command fails. -/
inductive Failure
  /-- A file cannot be read or written. -/
  | file (reason : String)
  /-- The text of the rules is no rule table. -/
  | rules
  /-- A description has no architecture. -/
  | description (e : CompileError)
  /-- Generation did not come to an end. -/
  | generation
deriving DecidableEq, Repr

def Failure.message : Failure → String
  | file reason => "IO error: " ++ reason
  | rules => "JSON error: not a rule table"
  | description e => e.message
  | generation => "Generation failed"

/-- What a command comes to. -/
inductive Result
  /-- Prints lines; `ok` says whether that is a success. -/
  | prints (ok : Bool) (lines : List String)
  /-- Saves a text to a file. -/
  | saves (file text : String)
  | fails (f : Failure)
deriving DecidableEq, Repr

namespace Result

/-- The exit status of a command line that asks for no command. -/
def usageStatus : UInt32 := 2

def status : Result → UInt32
  | prints ok _ => if ok then 0 else 1
  | saves _ _ => 0
  | fails _ => 1

/-- The text on the standard output. Every line is ended. -/
def printed : Result → String
  | prints _ lines => String.join (lines.map (· ++ "\n"))
  | _ => ""

/-- The text on the standard error. -/
def complaint : Result → String
  | fails f => "error: " ++ f.message ++ "\n"
  | _ => ""

/-- The result of writing a text to a file, or to the standard output. -/
def emits (text : String) : Option String → Result
  | some file => saves file text
  | none => prints true [text]

end Result

/-! ## What commands write -/

/-- Descriptions as one text, with an empty line between any two. -/
def joinTexts (texts : List String) : String := "\n\n".intercalate texts

/-- The text of some generated descriptions; those that come out empty are left out. -/
def generated {σ : Type} [RandomSource σ] (g : Grammar) (maxDepth : UInt64) (count : Nat)
    (source : σ) : Except Failure String :=
  match (Generator.ofGrammar g).generateMany Generator.Limits.ample maxDepth count source with
  | .done (texts, _) => .ok (joinTexts texts)
  | _ => .error .generation

/-- The diagnostics of a file, one to a line. -/
def reports (file : String) (ds : List Diagnostic) : List String :=
  ds.map fun d => file ++ ": " ++ d.shown

/-- The result of validating the description in a file. -/
def validation (file : String) (rules : RuleTable) (text : String) : Result :=
  match rules.checkText text with
  | .error e => .fails (.description (.unreadable e))
  | .ok [] => .prints true [file ++ ": valid"]
  | .ok ds =>
    .prints false
      (reports file ds ++ [file ++ ": invalid, " ++ toString ds.length ++ " error(s)"])

/-- The result of interpreting the description in a file. -/
def interpretation (file : String) (rules : RuleTable) (text : String) : Result :=
  match rules.compileText text with
  | .ok a => .prints true [a.render]
  | .error (.invalid ds) => .prints false (reports file ds)
  | .error e => .fails (.description e)

/-! ## Commands -/

variable {m : Type → Type} [Monad m]

/-- Reads the text of a file, or gives the reason why it cannot be read. -/
abbrev ReadFile (m : Type → Type) := String → m (Except String String)

/-- Goes on with a value, or fails. -/
def liftExcept {α : Type} (x : Except Failure α) : ExceptT Failure m α := ExceptT.mk (pure x)

/-- The text of a file. -/
def readText (read : ReadFile m) (file : String) : ExceptT Failure m String := do
  liftExcept ((← read file).mapError Failure.file)

/-- The rule table in a file, or the standard one. -/
def readRules (read : ReadFile m) (floats : Json.FloatReader) :
    Option String → ExceptT Failure m RuleTable
  | none => return RuleTable.standard
  | some file => do
    match RuleTable.parse? floats (← readText read file) with
    | some rules => return rules
    | none => throw .rules

/-- The grammar in a file, or the built-in one. -/
def readGrammar (read : ReadFile m) : Option String → ExceptT Failure m Grammar
  | none => return Grammar.standard
  | some file => return Grammar.ofText (← readText read file)

/-- What a command comes to, if no file it reads is in the way. A generation without a seed
takes the one that is given. -/
def result (read : ReadFile m) (floats : Json.FloatReader) (seed : UInt64) :
    Command → ExceptT Failure m Result
  | generate o => do
    let g ← readGrammar read o.grammar
    let maxDepth := o.maxDepth.getD Generator.defaultMaxDepth
    let text ← liftExcept
      (generated g maxDepth (o.count.getD 1) (KeyStream.ofSeed (o.seed.getD seed)))
    return .emits text o.output
  | validate file rules => do
    let text ← readText read file
    return validation file (← readRules read floats rules) text
  | interpret file rules => do
    let text ← readText read file
    return interpretation file (← readRules read floats rules) text
  | grammar output => return .emits Grammar.standardText output

/-- What a command comes to. -/
def run (read : ReadFile m) (floats : Json.FloatReader) (seed : UInt64) (c : Command) :
    m Result := do
  match ← (c.result read floats seed).run with
  | .ok r => return r
  | .error f => return .fails f

end Command

end NeuralArch
