import NeuralArch.Text.Blank

/-!
# Pages

The text of a description while it is written word by word. A page knows how
many braces are open, and whether the next word begins a line; it puts
blanks between words, begins a line behind a brace and behind a semicolon,
and indents lines by the open braces.

The text is kept in reverse, since all writing is at its end;
`Page.text` is the text in order. What is written never depends on more of it
than its end.

* `Mark` — what is written at one time: a word, a value, a brace or a
  semicolon.
* `write`, `openBrace`, `closeBrace`, `endStatement` — the four ways to write;
  `mark` chooses among them, and `ofMarks` writes a list.
* `size` — the length of the text in bytes of its UTF-8 encoding;
  `textFrom?` — the text from there on.
-/

namespace NeuralArch.Layout

open Text

/-- What is written at one time. -/
inductive Mark
  | word (text : String)
  /-- A word that was drawn at random. -/
  | value (text : String)
  | openBrace
  | closeBrace
  | semicolon
deriving DecidableEq, Repr

namespace Mark

/-- The mark of a literal: braces and semicolons shape the page, everything else is a word. -/
def ofLiteral (text : String) : Mark :=
  if text = "\x7b" then openBrace
  else if text = "\x7d" then closeBrace
  else if text = ";" then semicolon
  else word text

/-- The characters of a mark, without any blanks around it. -/
def text : Mark → String
  | word text => text
  | value text => text
  | openBrace => "\x7b"
  | closeBrace => "\x7d"
  | semicolon => ";"

@[simp] theorem text_ofLiteral (text : String) : (ofLiteral text).text = text := by
  unfold ofLiteral
  split
  · next h => exact h.symm
  · split
    · next h => exact h.symm
    · split
      · next h => exact h.symm
      · rfl

end Mark

/-- A text that is being written. -/
structure Page where
  /-- The characters written, the last one first. -/
  reversed : List Char
  /-- How many braces are open. -/
  level : Nat
  /-- How many spaces a level indents. -/
  width : Nat
  /-- Whether the next word begins a line. -/
  atLineStart : Bool
deriving Repr

namespace Page

/-- A page without text. -/
def empty (width : Nat) : Page := ⟨[], 0, width, true⟩

/-- The text of a page. -/
def text (p : Page) : List Char := p.reversed.reverse

/-- Makes room for a word: an indentation at the start of a line, one space elsewhere, if there
is none. -/
def pad (p : Page) : Page :=
  if p.atLineStart then
    { p with
      reversed := List.replicate (p.level * p.width) ' ' ++ p.reversed
      atLineStart := false }
  else if p.reversed.head? = some ' ' then p
  else { p with reversed := ' ' :: p.reversed }

/-- Ends a line, without the spaces at its end. -/
def newLine (p : Page) : Page :=
  { p with
    reversed := '\n' :: p.reversed.dropWhile (· == ' ')
    atLineStart := true }

/-- Writes characters as they are. -/
def put (p : Page) (cs : List Char) : Page := { p with reversed := cs.reverse ++ p.reversed }

/-- Writes a word. The empty word leaves no trace. -/
def write (p : Page) (word : String) : Page :=
  if word.isEmpty then p else p.pad.put word.toList

/-- Writes an opening brace, which ends its line. -/
def openBrace (p : Page) : Page :=
  let p := p.pad.put ['\x7b']
  newLine { p with level := p.level + 1 }

/-- Writes a closing brace on a line of its own. Without an open brace the level stays. -/
def closeBrace (p : Page) : Page :=
  let p := { p with level := p.level - 1 }
  let p := if p.atLineStart then p else p.newLine
  (p.pad.put ['\x7d']).newLine

/-- Writes a semicolon right behind what was written, whatever blanks stand between, and ends
the line. -/
def endStatement (p : Page) : Page :=
  newLine { p with reversed := ';' :: p.reversed.dropWhile isBlank }

/-- Writes a mark. -/
def mark (p : Page) : Mark → Page
  | .word text => p.write text
  | .value text => p.write text
  | .openBrace => p.openBrace
  | .closeBrace => p.closeBrace
  | .semicolon => p.endStatement

/-- The page on which some marks are written, with an indentation of `width` spaces. -/
def ofMarks (width : Nat) (marks : List Mark) : Page := marks.foldl mark (empty width)

@[simp] theorem ofMarks_nil (width : Nat) : ofMarks width [] = empty width := rfl

theorem ofMarks_append (width : Nat) (marks : List Mark) (m : Mark) :
    ofMarks width (marks ++ [m]) = (ofMarks width marks).mark m := by
  simp [ofMarks, List.foldl_append]

/-- The length of some text in bytes. -/
def byteLength (cs : List Char) : Nat := cs.foldr (fun c n => c.utf8Size + n) 0

/-- The length of the text in bytes. -/
def size (p : Page) : Nat := byteLength p.reversed

/-- Some text without its first `n` bytes; `none` if there are fewer, or if the cut would go
through a character. -/
def dropBytes? : Nat → List Char → Option (List Char)
  | 0, cs => some cs
  | _ + 1, [] => none
  | n + 1, c :: cs => if c.utf8Size ≤ n + 1 then dropBytes? (n + 1 - c.utf8Size) cs else none

/-- The text from a byte on. -/
def textFrom? (p : Page) (mark : Nat) : Option (List Char) := dropBytes? mark p.text

end Page

end NeuralArch.Layout
