import NeuralArch.Json

/-!
# JSON as text

Values are printed over several lines: each item of an array and each member
of an object on a line of its own, two spaces deeper than the brackets around
it. Empty arrays and objects stay on one line.

In strings a quote, a backslash and the control characters are escaped, five
of the latter by a letter; everything else is written as it is.
-/

namespace NeuralArch.Json

open Number

/-! ## Strings -/

/-- The letter that stands for a control character behind a backslash. -/
def shortEscape? : Char → Option Char
  | '\x08' => some 'b'
  | '\x0c' => some 'f'
  | '\n' => some 'n'
  | '\r' => some 'r'
  | '\t' => some 't'
  | '"' => some '"'
  | '\\' => some '\\'
  | _ => none

/-- A character as it is written in a string. -/
def escapeChar (c : Char) : List Char :=
  match shortEscape? c with
  | some letter => ['\\', letter]
  | none =>
    if c.toNat < 0x20 then
      ['\\', 'u', '0', '0', Nat.digitChar (c.toNat / 16), Nat.digitChar (c.toNat % 16)]
    else [c]

/-- A text as it is written: escaped, in quotes. -/
def quoted (cs : List Char) : List Char := '"' :: cs.flatMap escapeChar ++ ['"']

/-- A string literal. One that denotes no text is written as an unpaired surrogate. -/
def stringText : Option String → List Char
  | some s => quoted s.toList
  | none => '"' :: '\\' :: "ud800\"".toList

/-! ## Values -/

/-- The beginning of a line at some depth. -/
def newLine (depth : Nat) : List Char := '\n' :: List.replicate (2 * depth) ' '

mutual

/-- The text of a value that stands at some depth. -/
def textAt (depth : Nat) : Json → List Char
  | null => "null".toList
  | bool true => "true".toList
  | bool false => "false".toList
  | number n => n.text true
  | string text => stringText text
  | array [] => ['[', ']']
  | array (j :: js) =>
    '[' :: newLine (depth + 1) ++ textAt (depth + 1) j ++ itemsAt (depth + 1) js
      ++ newLine depth ++ [']']
  | object [] => ['\x7b', '\x7d']
  | object ((k, j) :: ms) =>
    '\x7b' :: newLine (depth + 1) ++ stringText k ++ [':', ' '] ++ textAt (depth + 1) j
      ++ membersAt (depth + 1) ms ++ newLine depth ++ ['\x7d']

/-- The items behind the first. -/
def itemsAt (depth : Nat) : List Json → List Char
  | [] => []
  | j :: js => ',' :: newLine depth ++ textAt depth j ++ itemsAt depth js

/-- The members behind the first. -/
def membersAt (depth : Nat) : List (Option String × Json) → List Char
  | [] => []
  | (k, j) :: ms =>
    ',' :: newLine depth ++ stringText k ++ [':', ' '] ++ textAt depth j ++ membersAt depth ms

end

/-- The text of a value. -/
def text (j : Json) : String := String.ofList (textAt 0 j)

end NeuralArch.Json
