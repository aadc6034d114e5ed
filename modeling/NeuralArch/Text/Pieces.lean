import NeuralArch.Text.Blank

/-!
# Cutting text into pieces

A separator cuts a text into pieces: one more piece than there are
separators, empty pieces included. Lines and words are the two uses.

* `split` — the pieces between separators; `splitFirst` keeps the first
  piece apart, so that the list of pieces is never empty by construction.
* `words` — the pieces between blanks, empty pieces left out.
* `intercalate_splitFirst` — cutting at one character and joining again with that
  character gives the text back.
-/

namespace NeuralArch.Text

/-- The piece before the first separator, and the pieces after it. -/
def splitFirst (isSep : Char → Bool) : List Char → List Char × List (List Char)
  | [] => ([], [])
  | c :: cs =>
    let (piece, pieces) := splitFirst isSep cs
    if isSep c then ([], piece :: pieces) else (c :: piece, pieces)

/-- The pieces between separators. -/
def split (isSep : Char → Bool) (cs : List Char) : List (List Char) :=
  let (piece, pieces) := splitFirst isSep cs
  piece :: pieces

/-- The pieces between line feeds. A final line feed leaves an empty last piece. -/
def lines (cs : List Char) : List (List Char) := split (· == '\n') cs

/-- The words of a text: its maximal runs without white space. -/
def words (cs : List Char) : List (List Char) := (split isBlank cs).filter (!·.isEmpty)

/-- Cutting at one character loses nothing but that character. -/
theorem intercalate_splitFirst (sep : Char) (cs : List Char) :
    (splitFirst (· == sep) cs).1 ++ (splitFirst (· == sep) cs).2.flatMap (sep :: ·) = cs := by
  induction cs with
  | nil => rfl
  | cons c cs ih =>
    by_cases h : c = sep
    · simp [splitFirst, h, ih]
    · simp [splitFirst, h, ih]

/-- No piece holds a separator. -/
theorem not_isSep_of_mem_split {isSep : Char → Bool} {cs piece : List Char} {c : Char}
    (hp : piece ∈ split isSep cs) (hc : c ∈ piece) : isSep c = false := by
  induction cs generalizing piece with
  | nil => simp_all [split, splitFirst]
  | cons d cs ih =>
    rw [split, splitFirst] at hp
    simp only [split, List.mem_cons] at ih hp
    by_cases hd : isSep d = true
    · rw [if_pos hd] at hp
      rcases hp with rfl | hp
      · simp at hc
      · exact ih (List.mem_cons.1 hp) hc
    · rw [if_neg hd] at hp
      rcases hp with rfl | hp
      · rcases List.mem_cons.1 hc with rfl | hc
        · simpa using hd
        · exact ih (.inl rfl) hc
      · exact ih (.inr hp) hc

end NeuralArch.Text
