import NeuralArch.Text.Position
import NeuralArch.Number.FloatText

/-!
# Diagnostics

What is wrong with a description that is correct in its syntax, and where.
A diagnostic has a cause; its kind and its wording follow from the cause.
-/

namespace NeuralArch

open Number

namespace Diagnostic

/-- The rule that is broken. -/
inductive Cause
  /-- A layer type the rule table does not know. -/
  | unknownLayer (layer : String)
  /-- A parameter its layer type does not admit. -/
  | notAllowed (param layer : String)
  /-- Text that is no number, for a parameter with a range of floats. -/
  | notNumber (param text : String)
  /-- A number outside a range of floats. -/
  | outside (param : String) (value min upper : Float)
  /-- Text that is no integer, for a parameter with a range of integers. -/
  | notInteger (param text : String)
  /-- An integer below its range. -/
  | tooSmall (param : String) (value min : Int64)
deriving DecidableEq, Repr

/-- The kinds of rule. -/
inductive Kind
  | structural | value | configuration
deriving DecidableEq, Repr

def Kind.name : Kind → String
  | structural => "structural"
  | value => "value"
  | configuration => "configuration"

def Cause.kind : Cause → Kind
  | unknownLayer _ => .configuration
  | notAllowed _ _ => .structural
  | _ => .value

/-- How a value is written: without a power of ten, and no longer than it takes. -/
def valueStyle : FloatStyle where
  plainFrom := none
  plainTo := none
  point := false
  plus := false
  tie := .up

/-- How a bound is written: always recognizable as a float, with a power of ten from `1e16` on
and below `0.0001`. -/
def boundStyle : FloatStyle where
  plainFrom := some (-4)
  plainTo := some 15
  point := true
  plus := false
  tie := .up

def Cause.message : Cause → String
  | unknownLayer layer => "layer type '" ++ layer ++ "' has no allowed-parameter entry"
  | notAllowed param layer =>
    "parameter '" ++ param ++ "' is not valid for layer '" ++ layer ++ "'"
  | notNumber param text => "value of '" ++ param ++ "' (" ++ text ++ ") is not a number"
  | outside param value min upper =>
    "value of '" ++ param ++ "' (" ++ valueStyle.text value ++ ") is outside the range ["
      ++ boundStyle.text min ++ ", " ++ boundStyle.text upper ++ ")"
  | notInteger param text => "value of '" ++ param ++ "' (" ++ text ++ ") must be an integer"
  | tooSmall param value min =>
    "value of '" ++ param ++ "' (" ++ toString value.toInt ++ ") cannot be less than "
      ++ toString min.toInt

end Diagnostic

/-- A broken rule with its place. -/
structure Diagnostic where
  cause : Diagnostic.Cause
  pos : Position
deriving DecidableEq, Repr

namespace Diagnostic

def kind (d : Diagnostic) : Kind := d.cause.kind

def message (d : Diagnostic) : String := d.cause.message

/-- A diagnostic on one line: kind, place and message. -/
def shown (d : Diagnostic) : String :=
  d.kind.name ++ " error (L" ++ toString d.pos.line ++ ":C" ++ toString d.pos.column ++ "): "
    ++ d.message

end Diagnostic

end NeuralArch
