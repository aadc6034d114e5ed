import NeuralArch.Vocabulary
import NeuralArch.Text.Position

/-!
# Tokens

A description is a sequence of tokens: structure words and punctuation,
words of the vocabulary, and numbers. `Token.Kind` is the class of a token
together with the vocabulary word it stands for, so a function on tokens is
one `match`; `Token` adds the characters it was written with and the place
where they stand.

* `Kind.spelling?` — the one spelling of a token kind; numbers have many.
* `Kind.label` — the upper-case label of a kind, in the manner of `LEAKY_RELU`.
* `Kind.keyword?` — the lower-case value a vocabulary word stands for.
* `Kind.mem_all` — `Kind.all` is complete.
-/

namespace NeuralArch.Token

/-- What a token is. -/
inductive Kind
  | neuralnet | input | output
  | lbrace | rbrace | lsqb | rsqb | equal | semicolon | comma
  | layer (type : LayerType)
  | param (name : ParamName)
  | activation (function : Activation)
  | initializer (initializer : Initializer)
  | padding (mode : PaddingMode)
  | poolType (type : PoolType)
  | float | int
deriving DecidableEq, Repr, Inhabited

namespace Kind

/-- The only way to write a token of this kind; `none` for numbers, which have many. -/
def spelling? : Kind → Option String
  | neuralnet => some "neuralnet"
  | input => some "input"
  | output => some "output"
  | lbrace => some "\x7b"
  | rbrace => some "\x7d"
  | lsqb => some "["
  | rsqb => some "]"
  | equal => some "="
  | semicolon => some ";"
  | comma => some ","
  | layer t => some t.word
  | param p => some p.word
  | activation a => some a.word
  | initializer i => some i.word
  | padding m => some m.word
  | poolType p => some p.word
  | float => none
  | int => none

/-- Every kind of token. -/
def all : List Kind :=
  [neuralnet, input, output, lbrace, rbrace, lsqb, rsqb, equal, semicolon, comma]
    ++ LayerType.all.map layer ++ ParamName.all.map param ++ Activation.all.map activation
    ++ Initializer.all.map initializer ++ PaddingMode.all.map padding
    ++ PoolType.all.map poolType ++ [float, int]

theorem mem_all (k : Kind) : k ∈ all := by
  cases k <;> simp [all, LayerType.mem_all, ParamName.mem_all, Activation.mem_all,
    Initializer.mem_all, PaddingMode.mem_all, PoolType.mem_all]

/-- Upper-case label of a kind. -/
def label : Kind → String
  | lbrace => "LBRACE"
  | rbrace => "RBRACE"
  | lsqb => "LSQB"
  | rsqb => "RSQB"
  | equal => "EQUAL"
  | semicolon => "SEMICOLON"
  | comma => "COMMA"
  | float => "FLOAT"
  | int => "INT"
  | k => (k.spelling?.getD "").toUpper

/-- The layer type a token names. -/
def layer? : Kind → Option LayerType
  | layer t => some t
  | _ => none

/-- The parameter a token names. -/
def param? : Kind → Option ParamName
  | param p => some p
  | _ => none

/-- The shape of the value expected behind this token, if it names a parameter. -/
def shape? (k : Kind) : Option ValueShape := k.param?.map ParamName.shape

def isActivation : Kind → Bool
  | activation _ => true
  | _ => false

def isInitializer : Kind → Bool
  | initializer _ => true
  | _ => false

def isPadding : Kind → Bool
  | padding _ => true
  | _ => false

def isPoolType : Kind → Bool
  | poolType _ => true
  | _ => false

def isNumber : Kind → Bool
  | float => true
  | int => true
  | _ => false

/-- The value a vocabulary word stands for, which is the word itself. Structure words,
parameter names and numbers stand for none. -/
def keyword? : Kind → Option String
  | layer t => some t.word
  | activation a => some a.word
  | initializer i => some i.word
  | padding m => some m.word
  | poolType p => some p.word
  | _ => none

end Kind

end NeuralArch.Token

namespace NeuralArch

/-- A token: its kind, the characters it was written with, and where the first of them
stands. -/
structure Token where
  kind : Token.Kind
  value : String
  pos : Position
deriving DecidableEq, Repr, Inhabited

end NeuralArch
