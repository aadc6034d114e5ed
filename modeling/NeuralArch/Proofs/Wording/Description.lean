import NeuralArch.Proofs.Sampling.Standard
import NeuralArch.Rules
import NeuralArch.Vocabulary

/-!
# Descriptions in words

A description as it is put together: assignments in blocks, with the words that
they are written with.  It is sound when every value suits its parameter, and
every parameter its block and the type of its layer.

* `Value` — the words that give a parameter its value.
* `Description`, `Description.words` — descriptions and their words.
* `Description.Valued`, `Description.Sound` — what a rule table asks of the values of a
  description, and of a description.
-/

namespace NeuralArch.Wording

open Token Lexing

/-- The items of a list behind the first. -/
def moreItems (items : List String) : List String := items.flatMap fun item => [",", item]

/-- The text of an integer that 64 bits hold. -/
structure ItemText (text : String) : Prop where
  integer : text.toList ∈ pattern .int
  readable : (Number.readInt64? text).isSome = true

/-- The words that give a parameter its value. -/
inductive Value (r : RuleTable) (p : ParamName) : List String → Prop
  | number {text : String} (hshape : p.shape = .number) (hvalid : ValidNumber r p.word text) :
      Value r p [text]
  | activation (hshape : p.shape = .activation) (a : Activation) : Value r p [a.word]
  | initializer (hshape : p.shape = .initializer) (i : Initializer) : Value r p [i.word]
  | padding (hshape : p.shape = .padding) (m : PaddingMode) : Value r p [m.word]
  | poolType (hshape : p.shape = .poolType) (t : PoolType) : Value r p [t.word]
  | dilations (hshape : p.shape = .dilationList) {first : String} {rest : List String}
      (hfirst : ItemText first) (hrest : ∀ item ∈ rest, ItemText item) :
      Value r p ("[" :: first :: (moreItems rest ++ ["]"]))

/-- A parameter with the words of its value. -/
structure Assignment where
  param : ParamName
  value : List String

def Assignment.words (a : Assignment) : List String :=
  a.param.word :: "=" :: (a.value ++ [";"])

/-- The words of a block. -/
def blockWords (head : String) (params : List Assignment) : List String :=
  head :: "\x7b" :: (params.flatMap Assignment.words ++ ["\x7d"])

/-- A hidden layer. -/
structure HiddenLayer where
  type : LayerType
  params : List Assignment

def HiddenLayer.words (l : HiddenLayer) : List String := blockWords l.type.word l.params

/-- A description: its input, its hidden layers and its output. -/
structure Description where
  input : List Assignment
  layers : List HiddenLayer
  output : List Assignment

def Description.words (d : Description) : List String :=
  "neuralnet" :: "\x7b" :: (blockWords "input" d.input ++ d.layers.flatMap HiddenLayer.words ++
    blockWords "output" d.output ++ ["\x7d"])

/-- The parameters suit the block, and the values the parameters. -/
def AllSound (r : RuleTable) (b : Block) (params : List Assignment) : Prop :=
  ∀ a ∈ params, b.admits a.param = true ∧ Value r a.param a.value

/-- The parameters of a description suit their blocks, and the values the parameters. -/
structure Description.Valued (r : RuleTable) (d : Description) : Prop where
  input : AllSound r .input d.input
  layers : ∀ l ∈ d.layers, AllSound r .hidden l.params
  output : AllSound r .output d.output

/-- A layer of a known type with parameters that the type admits. -/
structure HiddenLayer.Sound (r : RuleTable) (l : HiddenLayer) : Prop where
  params : AllSound r .hidden l.params
  admitted : ∃ allowed, r.allowed? l.type.word = some allowed ∧
    ∀ a ∈ l.params, allowed.contains a.param.word = true

structure Description.Sound (r : RuleTable) (d : Description) : Prop where
  input : AllSound r .input d.input
  layers : ∀ l ∈ d.layers, l.Sound r
  output : AllSound r .output d.output

theorem Description.Sound.valued {r : RuleTable} {d : Description} (h : d.Sound r) :
    d.Valued r := ⟨h.input, fun l hl => (h.layers l hl).params, h.output⟩

end NeuralArch.Wording
