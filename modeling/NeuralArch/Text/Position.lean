/-!
# Positions

Where a character stands in a text: its line and its column, both counted
from one. A column counts bytes of the UTF-8 encoding, so a character that
takes three bytes moves the column by three; a line ends at a line feed and
nowhere else.

* `Position.advance`, `Position.after` — the position behind a character,
  behind a text.
* `Position.before` — the order of reading, line first.
-/

namespace NeuralArch

/-- A place in a text. -/
structure Position where
  line : Nat
  column : Nat
deriving DecidableEq, Repr, Inhabited

namespace Position

/-- The position of the first character of a text. -/
def start : Position := ⟨1, 1⟩

/-- The position behind one character. -/
def advance (p : Position) (c : Char) : Position :=
  if c = '\n' then ⟨p.line + 1, 1⟩ else ⟨p.line, p.column + c.utf8Size⟩

/-- The position behind a text. -/
def after (p : Position) (cs : List Char) : Position := cs.foldl advance p

@[simp] theorem after_nil (p : Position) : p.after [] = p := rfl

@[simp] theorem after_cons (p : Position) (c : Char) (cs : List Char) :
    p.after (c :: cs) = (p.advance c).after cs := rfl

/-- Whether `p` is read no later than `q`. -/
def atMost (p q : Position) : Bool :=
  p.line < q.line || (p.line == q.line && p.column ≤ q.column)

end Position

end NeuralArch
