import Mathlib.Data.List.TakeWhile
import NeuralArch.Layout.Tidy

/-!
# Blanks and pieces

What a separator and a trim do to a text that is put together.

* `trimEnd_cons`, `head?_trim` — a trimmed text, from its first character.
* `splitFirst_append`, `splitFirst_cons_of_isSep`, `splitFirst_cons_of_not_isSep`
  — the pieces of a text, from its first piece.
* `lines_joinLines` — lines are cut where they were joined.
-/

namespace NeuralArch.Text

/-! ## Blanks -/

/-- Whether some text is blanks alone. -/
def Blank (cs : List Char) : Prop := ∀ c ∈ cs, isBlank c = true

theorem Blank.nil : Blank [] := by
  intro c hc
  simp at hc

theorem Blank.cons {c : Char} {cs : List Char} (hc : isBlank c = true) (hcs : Blank cs) :
    Blank (c :: cs) :=
  List.forall_mem_cons.2 ⟨hc, hcs⟩

theorem Blank.head {c : Char} {cs : List Char} (h : Blank (c :: cs)) : isBlank c = true :=
  h c (List.mem_cons_self ..)

theorem Blank.tail {c : Char} {cs : List Char} (h : Blank (c :: cs)) : Blank cs :=
  fun d hd => h d (List.mem_cons_of_mem c hd)

theorem trimEnd_cons (c : Char) (cs : List Char) :
    trimEnd (c :: cs) = if isBlank c = true ∧ trimEnd cs = [] then [] else c :: trimEnd cs := by
  have hempty : (cs.reverse.dropWhile isBlank).isEmpty = true ↔ trimEnd cs = [] := by
    rw [List.isEmpty_iff, trimEnd, List.reverse_eq_nil_iff]
  rw [trimEnd, List.reverse_cons, List.dropWhile_append]
  by_cases hcs : trimEnd cs = []
  · rw [if_pos (hempty.2 hcs), hcs]
    by_cases hc : isBlank c = true
    · rw [if_pos ⟨hc, rfl⟩, List.dropWhile_cons_of_pos hc]
      rfl
    · rw [if_neg (fun h => hc h.1), List.dropWhile_cons_of_neg hc]
      rfl
  · rw [if_neg (fun h => hcs (hempty.1 h)), if_neg (fun h => hcs h.2), List.reverse_append]
    rfl

/-- The first character of a trimmed text is the first that is no blank. -/
theorem head?_trim (cs : List Char) : (trim cs).head? = cs.find? fun c => !isBlank c := by
  obtain ⟨blanks, hcs, hblanks⟩ := exists_trimEnd_append cs
  have hnone : blanks.find? (fun c => !isBlank c) = none := by
    rw [List.find?_eq_none]
    intro c hc
    simpa using hblanks c hc
  have hdrop := List.find?_eq_head?_dropWhile_not (fun c => !isBlank c) (trimEnd cs)
  simp only [Bool.not_not] at hdrop
  calc (trim cs).head? = (trimEnd cs).find? fun c => !isBlank c := hdrop.symm
    _ = (trimEnd cs ++ blanks).find? fun c => !isBlank c := by
      rw [List.find?_append, hnone, Option.or_none]
    _ = cs.find? fun c => !isBlank c := by rw [← hcs]

/-! ## Pieces -/

theorem splitFirst_append {isSep : Char → Bool} {w : List Char} (hw : ∀ c ∈ w, isSep c = false)
    (cs : List Char) :
    splitFirst isSep (w ++ cs) = (w ++ (splitFirst isSep cs).1, (splitFirst isSep cs).2) := by
  induction w with
  | nil => rfl
  | cons c w ih =>
    rw [List.forall_mem_cons] at hw
    rw [List.cons_append, splitFirst, ih hw.2]
    simp [hw.1]

theorem splitFirst_cons_of_isSep {isSep : Char → Bool} {c : Char} (hc : isSep c = true)
    (cs : List Char) :
    splitFirst isSep (c :: cs) = ([], (splitFirst isSep cs).1 :: (splitFirst isSep cs).2) := by
  rw [splitFirst]
  simp [hc]

theorem splitFirst_cons_of_not_isSep {isSep : Char → Bool} {c : Char} (hc : isSep c = false)
    (cs : List Char) :
    splitFirst isSep (c :: cs) = (c :: (splitFirst isSep cs).1, (splitFirst isSep cs).2) := by
  rw [splitFirst]
  simp [hc]

/-- The first piece begins as the text does, unless a separator is there. -/
theorem head?_splitFirst {isSep : Char → Bool} {cs : List Char} :
    ∀ c ∈ (splitFirst isSep cs).1.head?, c ∈ cs.head? ∧ isSep c = false := by
  cases cs with
  | nil => simp [splitFirst]
  | cons d cs =>
    cases hd : isSep d with
    | true => simp [splitFirst_cons_of_isSep hd]
    | false => simp [splitFirst_cons_of_not_isSep hd, hd]

/-- Lines are joined by what cuts them. -/
theorem lines_joinLines {rows : List (List Char)} (hne : rows ≠ [])
    (hrows : ∀ row ∈ rows, '\n' ∉ row) : lines (Layout.joinLines rows) = rows := by
  have hfree : ∀ row ∈ rows, ∀ c ∈ row, (c == '\n') = false := by
    intro row hrow c hc
    rw [beq_eq_false_iff_ne]
    rintro rfl
    exact hrows row hrow hc
  induction rows with
  | nil => exact absurd rfl hne
  | cons row rows ih =>
    rw [List.forall_mem_cons] at hfree hrows
    cases rows with
    | nil =>
      have hsplit := splitFirst_append hfree.1 []
      rw [List.append_nil] at hsplit
      rw [Layout.joinLines, lines, split, hsplit]
      simp [splitFirst]
    | cons next rows =>
      have htail := ih (List.cons_ne_nil _ _) hrows.2 hfree.2
      rw [Layout.joinLines, lines, split]
      · rw [lines, split] at htail
        rw [splitFirst_append hfree.1, splitFirst_cons_of_isSep (by simp)]
        dsimp only at htail ⊢
        rw [htail, List.append_nil]
      · simp

end NeuralArch.Text
