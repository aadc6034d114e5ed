import NeuralArch.Text.Pieces

/-!
# Tidy text

Text as it is written piece by piece has blanks in odd places. `tidy` makes
it tidy in four steps:

1. no space or tab before `;`, `,` and `]` (`tightenClosers`);
2. no space or tab behind `[` (`tightenBrackets`);
3. one space between an opening brace and what stands before it
   (`spaceBraces`);
4. no blank at the end of a line, and no empty line (`tidyLines`).

The third step replaces from left to right without looking back: a brace that
has been set apart does not set the next one apart, so of three braces in a
row the first two are separated.
-/

namespace NeuralArch.Layout

open Text

/-- A space or a tab. -/
def isGap (c : Char) : Bool := c == ' ' || c == '\t'

/-- A character that takes no gap before it. -/
def isCloser (c : Char) : Bool := c == ';' || c == ',' || c == ']'

/-- Drops the gaps before closers. -/
def tightenClosers : List Char → List Char
  | [] => []
  | c :: cs =>
    let rest := tightenClosers cs
    if isGap c && rest.head?.any isCloser then rest else c :: rest

/-- Drops the gaps behind opening brackets; `afterBracket` says that one stands before. -/
def tightenBracketsFrom (afterBracket : Bool) : List Char → List Char
  | [] => []
  | c :: cs =>
    if afterBracket && isGap c then tightenBracketsFrom true cs
    else c :: tightenBracketsFrom (c == '[') cs

/-- Drops the gaps behind opening brackets. -/
def tightenBrackets (cs : List Char) : List Char := tightenBracketsFrom false cs

/-- What follows an opening brace, if only a gap stands before that. -/
def afterBrace? (cs : List Char) : Option (List Char) :=
  match cs.dropWhile isGap with
  | '\x7b' :: rest => some rest
  | _ => none

theorem length_afterBrace? {cs rest : List Char} (h : afterBrace? cs = some rest) :
    rest.length < cs.length := by
  unfold afterBrace? at h
  have hd := (List.dropWhile_sublist isGap (l := cs)).length_le
  split at h
  · next tail ht =>
    simp only [Option.some.injEq] at h
    subst h
    rw [ht, List.length_cons] at hd
    exact hd
  · simp at h

/-- Sets opening braces apart by one space, from left to right. -/
def spaceBraces (cs : List Char) : List Char :=
  match cs with
  | [] => []
  | c :: cs =>
    if isBlank c then c :: spaceBraces cs
    else
      match h : afterBrace? cs with
      | some rest =>
        have : rest.length < cs.length := length_afterBrace? h
        c :: ' ' :: '\x7b' :: spaceBraces rest
      | none => c :: spaceBraces cs
termination_by cs.length

/-- Joins lines with line feeds between them. -/
def joinLines : List (List Char) → List Char
  | [] => []
  | [l] => l
  | l :: ls => l ++ '\n' :: joinLines ls

/-- Trims every line at its end and drops the lines that are empty then. -/
def tidyLines (cs : List Char) : List Char :=
  joinLines (((lines cs).map trimEnd).filter (!·.isEmpty))

/-- Tidy text. -/
def tidy (cs : List Char) : List Char :=
  tidyLines (spaceBraces (tightenBrackets (tightenClosers cs)))

/-- Tidy text. -/
def tidyText (text : String) : String := String.ofList (tidy text.toList)

end NeuralArch.Layout
