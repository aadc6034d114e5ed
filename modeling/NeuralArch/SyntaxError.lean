import NeuralArch.Text.Position
import NeuralArch.Vocabulary

/-!
# Syntax errors

Why a text is no description, and where. There are two reasons: a character
that begins no token, or a token (or the end of the text) that the language
does not allow at its place. The second names what it allows instead.

The wording is in `Expected.text`, `Cause.text` and `SyntaxError.message`,
and nowhere else.
-/

namespace NeuralArch

namespace SyntaxError

/-- What the language allows at a place of a text. -/
inductive Expected
  | neuralnet | openBrace | closeBrace | input | outputOrLayer | layerType
  | paramOrClose | paramName (block : Block)
  | equals | semicolon | number | padding | poolType | activation | initializer
  | openBracket | integer | comma | commaOrBracket | endOfInput
deriving DecidableEq, Repr

def Expected.text : Expected → String
  | neuralnet => "'neuralnet'"
  | openBrace => "'\x7b'"
  | closeBrace => "'\x7d'"
  | input => "'input'"
  | outputOrLayer => "'output' or a layer type"
  | layerType => "layer type"
  | paramOrClose => "parameter or '\x7d'"
  | paramName .input => "input_param name"
  | paramName .output => "output_param name"
  | paramName .hidden => "layer_param name"
  | equals => "'='"
  | semicolon => "';'"
  | number => "number"
  | padding => "padding mode"
  | poolType => "pool type"
  | activation => "activation function"
  | initializer => "kernel initializer"
  | openBracket => "'['"
  | integer => "integer"
  | comma => "','"
  | commaOrBracket => "',' or ']'"
  | endOfInput => "end of input"

/-- Why a text cannot be read on. -/
inductive Cause
  /-- No token begins with this character. -/
  | unrecognized (c : Char)
  /-- The text of a token, or its end (`none`), stands where something else belongs. -/
  | unexpected (expected : Expected) (found : Option String)
deriving DecidableEq, Repr

def Cause.text : Cause → String
  | unrecognized c => "unrecognized input '" ++ String.ofList [c] ++ "'"
  | unexpected e none => "expected " ++ e.text ++ ", found end of input"
  | unexpected e (some value) => "expected " ++ e.text ++ ", found '" ++ value ++ "'"

end SyntaxError

/-- A syntax error with its place. -/
structure SyntaxError where
  cause : SyntaxError.Cause
  pos : Position
deriving DecidableEq, Repr

namespace SyntaxError

/-- What is wrong, without the place. -/
def detail (e : SyntaxError) : String := e.cause.text

/-- What is wrong, and where. -/
def message (e : SyntaxError) : String :=
  "Syntax error at line " ++ toString e.pos.line ++ ", column " ++ toString e.pos.column ++ ": "
    ++ e.detail

end SyntaxError

end NeuralArch
