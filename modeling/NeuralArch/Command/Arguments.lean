/-!
# Arguments of a command

The words behind a command's name: options `--name value` or `--name=value`,
and operands, in any order. Behind a lone `--` everything is an operand. A
word that begins with a dash is never an operand or the second word of an
option otherwise, save the lone dash.

* `Arguments.scan?` — the arguments of a list of words.
* `Arguments.admits` — whether every option has an admitted name, and no two
  the same.
* `Arguments.read?` — the value of an option, read.
-/

namespace NeuralArch

/-- Options with their values, and operands, each in the order they are given. -/
structure Arguments where
  options : List (String × String)
  operands : List String
deriving DecidableEq, Repr

namespace Arguments

/-- Whether a word is one for an option, and cannot be a value. -/
def isDashed (word : String) : Bool := word.toList.head? == some '-' && word != "-"

/-- The name of the option that a word gives, and its value if the word holds that too. -/
def option? (word : String) : Option (String × Option String) :=
  match word.toList with
  | '-' :: '-' :: cs =>
    let name := String.ofList (cs.takeWhile (· != '='))
    match cs.dropWhile (· != '=') with
    | [] => some (name, none)
    | _ :: value => some (name, some (String.ofList value))
  | _ => none

/-- One more option, in front. -/
def consOption (name value : String) (a : Arguments) : Arguments :=
  { a with options := (name, value) :: a.options }

/-- One more operand, in front. -/
def consOperand (word : String) (a : Arguments) : Arguments :=
  { a with operands := word :: a.operands }

/-- The arguments of a list of words. There are none if an option lacks its value, or if a
single dash begins a word. -/
def scan? : List String → Option Arguments
  | [] => some ⟨[], []⟩
  | word :: words =>
    if word = "--" then some ⟨[], words⟩
    else match option? word with
      | some (name, some value) => (scan? words).map (consOption name value)
      | some (name, none) =>
        match words with
        | [] => none
        | value :: words =>
          if isDashed value then none else (scan? words).map (consOption name value)
      | none => if isDashed word then none else (scan? words).map (consOperand word)

/-- Whether every option has an admitted name, and no two the same. -/
def admits (names : List String) (a : Arguments) : Bool :=
  decide (∀ n ∈ a.options.map Prod.fst, n ∈ names) && decide (a.options.map Prod.fst).Nodup

/-- The value of an option: `some none` if it is not given, `none` if it cannot be read. -/
def read? {α : Type} (a : Arguments) (name : String) (read : String → Option α) :
    Option (Option α) :=
  match a.options.lookup name with
  | none => some none
  | some value => (read value).map some

/-- The only operand. -/
def operand? (a : Arguments) : Option String :=
  match a.operands with
  | [word] => some word
  | _ => none

end Arguments

end NeuralArch
