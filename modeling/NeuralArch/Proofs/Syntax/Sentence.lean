import Mathlib.Computability.Language
import NeuralArch.Token

/-!
# The language of descriptions

The sentences of the description language, as a language over token kinds
and without any reader in sight:

    description  neuralnet { input-block hidden-block* output-block }
    block        head { parameter* }
    parameter    name = value ;

The name of a parameter decides the form of its value, and the block decides
which names may stand in it.  Everything is built from single kinds by
concatenation, union and Kleene closure, so a sentence carries no more
structure than the list it is.

* `description` — the language.
* `mem_mark_mul_iff` — membership, taken apart at a mark.
-/

namespace NeuralArch.Syntax

open Token
open scoped Computability

/-- The sentence of one kind. -/
def mark (k : Kind) : Language Kind := {[k]}

/-- The sentences of one kind out of several. -/
def oneOf (accept : Kind → Bool) : Language Kind := {ks | ∃ k, accept k = true ∧ ks = [k]}

/-- `[ INT (, INT)* ]`. -/
def dilationList : Language Kind :=
  mark .lsqb * (mark .int * ((mark .comma * mark .int)∗ * mark .rsqb))

/-- What is written behind an equals sign. -/
def value : ValueShape → Language Kind
  | .number => oneOf Kind.isNumber
  | .activation => oneOf Kind.isActivation
  | .initializer => oneOf Kind.isInitializer
  | .padding => oneOf Kind.isPadding
  | .poolType => oneOf Kind.isPoolType
  | .dilationList => dilationList

/-- `name = value ;` for one name. -/
def assignment (p : ParamName) : Language Kind :=
  mark (.param p) * (mark .equal * (value p.shape * mark .semicolon))

/-- The parameters that may stand in a block. -/
def param (b : Block) : Language Kind := {ks | ∃ p, b.admits p = true ∧ ks ∈ assignment p}

/-- What stands in front of the brace of a block. -/
def head : Block → Language Kind
  | .input => mark .input
  | .hidden => oneOf (·.layer?.isSome)
  | .output => mark .output

/-- A head with parameters in braces. -/
def block (b : Block) : Language Kind :=
  head b * (mark .lbrace * ((param b)∗ * mark .rbrace))

/-- The description of a network. -/
def description : Language Kind :=
  mark .neuralnet * (mark .lbrace *
    (block .input * ((block .hidden)∗ * (block .output * mark .rbrace))))

/-! ## Membership -/

theorem mem_mark_iff {k : Kind} {ks : List Kind} : ks ∈ mark k ↔ ks = [k] := Iff.rfl

theorem mem_oneOf_iff {accept : Kind → Bool} {ks : List Kind} :
    ks ∈ oneOf accept ↔ ∃ k, accept k = true ∧ ks = [k] := Iff.rfl

theorem mem_param_iff {b : Block} {ks : List Kind} :
    ks ∈ param b ↔ ∃ p, b.admits p = true ∧ ks ∈ assignment p := Iff.rfl

/-- A mark in front takes exactly the first kind. -/
theorem mem_mark_mul_iff {k : Kind} {l : Language Kind} {ks : List Kind} :
    ks ∈ mark k * l ↔ ∃ tail ∈ l, ks = k :: tail := by
  rw [Language.mem_mul]
  constructor
  · rintro ⟨a, ha, tail, htail, rfl⟩
    rw [mem_mark_iff] at ha
    exact ⟨tail, htail, by rw [ha]; rfl⟩
  · rintro ⟨tail, htail, rfl⟩
    exact ⟨[k], rfl, tail, htail, rfl⟩

end NeuralArch.Syntax
