import NeuralArch.Grammar
import NeuralArch.Text.Pieces

/-!
# Grammars from text

A grammar is written as definitions `<name> ::= alternative | alternative`.
Lines whose first word begins with `#` are comments. Apart from them lines do
not matter: a definition runs to the next header, wherever that stands. Tokens
are separated by white space, and a definition replaces an earlier one of the
same name.

* `flatten` — the text without comments, on one line.
* `header?` — a definition's header at the front of a text.
* `sections` — the headers of a text with what stands behind each.
* `Grammar.ofText` — the grammar of a text.
-/

namespace NeuralArch.Grammar

open Text

/-- The lines of a text that are no comments, trimmed, each with a blank behind it. -/
def flatten (cs : List Char) : List Char :=
  (lines cs).flatMap fun line =>
    let line := trim line
    if line.head? = some '#' then [] else line ++ [' ']

/-- Whether a character may stand in a definition's name. -/
def isNameChar (c : Char) : Bool := c != '<' && c != '>' && !isBlank c

/-- A header `<name> ::=` at the front of a text: the name, and the text behind it. -/
def header? : List Char → Option (List Char × List Char)
  | '<' :: cs =>
    let name := cs.takeWhile isNameChar
    if name.isEmpty then none
    else match cs.dropWhile isNameChar with
      | '>' :: rest =>
        match trimStart rest with
        | ':' :: ':' :: '=' :: rest => some (name, rest)
        | _ => none
      | _ => none
  | _ => none

theorem length_header? {cs name rest : List Char} (h : header? cs = some (name, rest)) :
    rest.length < cs.length := by
  have drop : ∀ (p : Char → Bool) (l : List Char), (l.dropWhile p).length ≤ l.length :=
    fun p l => (List.dropWhile_sublist p).length_le
  unfold header? at h
  split at h
  · next cs =>
    dsimp only at h
    split at h
    · simp at h
    · split at h
      · next tail ht =>
        split at h
        · next rest' hr =>
          simp only [Option.some.injEq, Prod.mk.injEq] at h
          obtain ⟨-, rfl⟩ := h
          have h1 := drop isNameChar cs
          have h2 := drop isBlank tail
          rw [ht] at h1
          rw [trimStart] at hr
          rw [hr] at h2
          simp only [List.length_cons] at h1 h2 ⊢
          omega
        · simp at h
      · simp at h
  · simp at h

/-- The text before the first header, and for each header its name and the text behind it,
up to the next header. -/
def sections (cs : List Char) : List Char × List (List Char × List Char) :=
  match cs with
  | [] => ([], [])
  | c :: rest =>
    match h : header? (c :: rest) with
    | some (name, tail) =>
      have : tail.length < rest.length + 1 := length_header? h
      let (body, later) := sections tail
      ([], (name, body) :: later)
    | none =>
      let (before, later) := sections rest
      (c :: before, later)
termination_by cs.length

/-- The alternatives in the text behind a header, as tokens. Those without tokens are left
out. -/
def alternatives (body : List Char) : List (List String) :=
  ((split (· == '|') body).map fun alternative => (words alternative).map String.ofList).filter
    (!·.isEmpty)

/-- The grammar of a text. -/
def ofText (text : String) : Grammar :=
  (sections (flatten text.toList)).2.foldl
    (fun g (name, body) => g.define (String.ofList name) (alternatives body)) empty

end NeuralArch.Grammar
