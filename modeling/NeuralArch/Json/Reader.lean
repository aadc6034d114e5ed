import NeuralArch.Json

/-!
# JSON from text

A reader for exactly the JSON grammar: no comments, no trailing commas, no
leading zeros, no control characters in strings, nothing behind the value but
blanks. It judges syntax alone; literals without a meaning pass
(`Json.settled`).

Every function reads from the front of a text and returns what it read with
the text behind it. Values contain values, so those functions count down a
bound on the nesting and on the number of items together; the length of the
text is bound enough, since each step takes a character.

* `Json.parse?` — the value of a whole text.
-/

namespace NeuralArch.Json

open Number

/-! ## Literals -/

def isSpace (c : Char) : Bool := c == ' ' || c == '\t' || c == '\n' || c == '\r'

def skipSpace (cs : List Char) : List Char := cs.dropWhile isSpace

/-- A piece of a string literal: a character, or the sixteen bits of a `\u` escape. -/
inductive Piece
  | char (c : Char)
  | unit (n : Nat)
deriving DecidableEq, Repr

/-- The value of a hexadecimal digit. -/
def hexValue? (c : Char) : Option Nat :=
  if c.isDigit then some (c.toNat - '0'.toNat)
  else if 'a' ≤ c ∧ c ≤ 'f' then some (c.toNat - 'a'.toNat + 10)
  else if 'A' ≤ c ∧ c ≤ 'F' then some (c.toNat - 'A'.toNat + 10)
  else none

/-- Four hexadecimal digits. -/
def hexUnit? (a b c d : Char) : Option Nat := do
  let a ← hexValue? a
  let b ← hexValue? b
  let c ← hexValue? c
  let d ← hexValue? d
  return ((a * 16 + b) * 16 + c) * 16 + d

/-- The character a letter stands for behind a backslash. -/
def unescape? : Char → Option Char
  | '"' => some '"'
  | '\\' => some '\\'
  | '/' => some '/'
  | 'b' => some '\x08'
  | 'f' => some '\x0c'
  | 'n' => some '\n'
  | 'r' => some '\r'
  | 't' => some '\t'
  | _ => none

/-- The pieces of a string literal up to its closing quote. -/
def pieces? : List Char → Option (List Piece × List Char)
  | '"' :: cs => some ([], cs)
  | '\\' :: 'u' :: a :: b :: c :: d :: cs =>
    match hexUnit? a b c d, pieces? cs with
    | some n, some (ps, rest) => some (.unit n :: ps, rest)
    | _, _ => none
  | '\\' :: e :: cs =>
    match unescape? e, pieces? cs with
    | some c, some (ps, rest) => some (.char c :: ps, rest)
    | _, _ => none
  | c :: cs =>
    if c.toNat < 0x20 then none
    else match pieces? cs with
      | some (ps, rest) => some (.char c :: ps, rest)
      | none => none
  | [] => none

def isHighSurrogate (n : Nat) : Bool := 0xD800 ≤ n && n < 0xDC00

def isLowSurrogate (n : Nat) : Bool := 0xDC00 ≤ n && n < 0xE000

/-- The text of pieces: a high surrogate and the low one behind it make one character. There
is no text if a surrogate stands alone; `high` is one that waits for its other half. -/
def join? (high : Option Nat) : List Piece → Option (List Char)
  | [] => if high.isSome then none else some []
  | .char c :: ps => if high.isSome then none else (join? none ps).map (c :: ·)
  | .unit n :: ps =>
    match high with
    | some h =>
      if isLowSurrogate n then
        (join? none ps).map (Char.ofNat (0x10000 + (h - 0xD800) * 0x400 + (n - 0xDC00)) :: ·)
      else none
    | none =>
      if isHighSurrogate n then join? (some n) ps
      else if isLowSurrogate n then none
      else (join? none ps).map (Char.ofNat n :: ·)

/-- A string literal behind its opening quote. -/
def string? (cs : List Char) : Option (Option String × List Char) :=
  (pieces? cs).map fun (ps, rest) => ((join? none ps).map String.ofList, rest)

/-- A run of digits, and at least one. -/
def digits? (cs : List Char) : Option (List Char × List Char) :=
  let ds := cs.takeWhile Char.isDigit
  if ds.isEmpty then none else some (ds, cs.dropWhile Char.isDigit)

/-- The digits before a point: a zero alone, or digits that do not begin with zero. -/
def whole? : List Char → Option (List Char × List Char)
  | '0' :: cs => some (['0'], cs)
  | cs => digits? cs

/-- A point with digits, or nothing. -/
def fraction? : List Char → Option (List Char × List Char)
  | '.' :: cs => digits? cs
  | cs => some ([], cs)

/-- A power of ten, or nothing. -/
def power? : List Char → Option (Option (Bool × List Char) × List Char)
  | [] => some (none, [])
  | c :: cs =>
    if c == 'e' || c == 'E' then
      let (negative, cs) := splitSign cs
      (digits? cs).map fun (ds, rest) => (some (negative, ds), rest)
    else some (none, c :: cs)

/-- A number. -/
def number? (cs : List Char) : Option (Numeral × List Char) := do
  let (negative, cs) := match cs with
    | '-' :: cs => (true, cs)
    | cs => (false, cs)
  let (whole, cs) ← whole? cs
  let (fraction, cs) ← fraction? cs
  let (power, cs) ← power? cs
  return (⟨negative, whole, fraction, power⟩, cs)

/-- The rest of a text behind a word. -/
def word? (word : String) (cs : List Char) : Option (List Char) :=
  if word.toList.isPrefixOf cs then some (cs.drop word.toList.length) else none

/-! ## Values -/

mutual

/-- A value at the front of a text. -/
def value? : Nat → List Char → Option (Json × List Char)
  | 0, _ => none
  | n + 1, cs =>
    match skipSpace cs with
    | '"' :: cs => (string? cs).map fun (s, rest) => (.string s, rest)
    | '[' :: cs =>
      match skipSpace cs with
      | ']' :: cs => some (.array [], cs)
      | cs => (items? n cs).map fun (items, rest) => (.array items, rest)
    | '\x7b' :: cs =>
      match skipSpace cs with
      | '\x7d' :: cs => some (.object [], cs)
      | cs => (members? n cs).map fun (members, rest) => (.object members, rest)
    | 'n' :: cs => (word? "ull" cs).map fun rest => (.null, rest)
    | 't' :: cs => (word? "rue" cs).map fun rest => (.bool true, rest)
    | 'f' :: cs => (word? "alse" cs).map fun rest => (.bool false, rest)
    | cs => (number? cs).map fun (m, rest) => (.number m, rest)

/-- The items of an array, and at least one, up to its closing bracket. -/
def items? : Nat → List Char → Option (List Json × List Char)
  | 0, _ => none
  | n + 1, cs => do
    let (j, cs) ← value? n cs
    match skipSpace cs with
    | ']' :: cs => return ([j], cs)
    | ',' :: cs =>
      let (js, rest) ← items? n cs
      return (j :: js, rest)
    | _ => none

/-- The members of an object, and at least one, up to its closing brace. -/
def members? : Nat → List Char → Option (List (Option String × Json) × List Char)
  | 0, _ => none
  | n + 1, cs =>
    match skipSpace cs with
    | '"' :: cs => do
      let (k, cs) ← string? cs
      match skipSpace cs with
      | ':' :: cs =>
        let (j, cs) ← value? n cs
        match skipSpace cs with
        | '\x7d' :: cs => return ([(k, j)], cs)
        | ',' :: cs =>
          let (ms, rest) ← members? n cs
          return ((k, j) :: ms, rest)
        | _ => none
      | _ => none
    | _ => none

end

/-- The value of a text. -/
def parse? (text : String) : Option Json :=
  match value? (text.toList.length + 1) text.toList with
  | some (j, rest) => if (skipSpace rest).isEmpty then some j else none
  | none => none

end NeuralArch.Json
