import NeuralArch.Command.Arguments
import NeuralArch.Number.Read

/-!
# Commands

What the program can be asked to do. A command line names a command first;
`Command.ofWords?` is the command that a command line asks for. There is none
if the command is unknown, if an option is unknown, repeated or cannot be
read, or if there are too few operands or too many.
-/

namespace NeuralArch

/-- What is generated, and where it goes. -/
structure GenerateOptions where
  /-- The file of the grammar; without one it is the built-in grammar. -/
  grammar : Option String
  /-- Without a seed every run differs. -/
  seed : Option UInt64
  /-- How deep self-recursion goes; without a number, as deep as generators go by default. -/
  maxDepth : Option UInt64
  /-- How many descriptions; without a number, one. -/
  count : Option Nat
  /-- The file they go to; without one, they are printed. -/
  output : Option String
deriving DecidableEq, Repr

/-- What the program can be asked to do. -/
inductive Command
  /-- Writes random descriptions. -/
  | generate (options : GenerateOptions)
  /-- Reports what a rule table has against the description in a file. -/
  | validate (file : String) (rules : Option String)
  /-- Prints the architecture of the description in a file. -/
  | interpret (file : String) (rules : Option String)
  /-- Writes the built-in grammar. -/
  | grammar (output : Option String)
deriving DecidableEq, Repr

namespace Command

/-- A file's name. It is never empty. -/
def path? (word : String) : Option String := if word.isEmpty then none else some word

/-- The arguments of a command that has options of the given names. -/
def arguments? (names : List String) (words : List String) : Option Arguments :=
  match Arguments.scan? words with
  | some a => if a.admits names then some a else none
  | none => none

/-- The command with the arguments of `generate`. -/
def generate? (words : List String) : Option Command := do
  let a ← arguments? ["grammar", "seed", "max-depth", "count", "output"] words
  let grammar ← a.read? "grammar" path?
  let seed ← a.read? "seed" Number.readWord?
  let maxDepth ← a.read? "max-depth" Number.readWord?
  let count ← a.read? "count" Number.readWord?
  let output ← a.read? "output" path?
  if a.operands.isEmpty then
    return generate ⟨grammar, seed, maxDepth, count.map UInt64.toNat, output⟩
  else none

/-- The command that is made of a file and perhaps a rule table. -/
def onFile? (make : String → Option String → Command) (words : List String) :
    Option Command := do
  let a ← arguments? ["rules"] words
  let rules ← a.read? "rules" path?
  let file ← a.operand?
  let file ← path? file
  return make file rules

/-- The command with the arguments of `grammar`. -/
def grammar? (words : List String) : Option Command := do
  let a ← arguments? ["output"] words
  let output ← a.read? "output" path?
  if a.operands.isEmpty then return grammar output else none

/-- The command that a command line asks for. -/
def ofWords? : List String → Option Command
  | "generate" :: words => generate? words
  | "validate" :: words => onFile? validate words
  | "interpret" :: words => onFile? interpret words
  | "grammar" :: words => grammar? words
  | _ => none

end Command

end NeuralArch
