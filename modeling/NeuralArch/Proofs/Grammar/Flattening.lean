import NeuralArch.Grammar.OfText
import NeuralArch.Proofs.Text.Pieces

/-!
# Grammar text on one line

Before a grammar is read, its comment lines are dropped and its other lines are
written side by side. What is said here is what this does to a text that is
written in pieces with blanks between them: the pieces stay, and blanks stay
blanks. Only how many there are changes, except that none come to stand where
none were.

A line loses the blanks at both ends, and so a character and the line it begins
are not treated alike: `joined` is the text on one line, and `continued` is the
same for a text whose first line goes on one that has been begun.

Main results:

* `flatten_eq` — reading drops comments and joins the rest.
* `exists_joined_gap`, `exists_continued_gap` — blanks in front of a character.
* `exists_continued_cons` — a text begins as it did.
-/

namespace NeuralArch.Grammar

open Text
open NeuralArch.Layout (joinLines)

/-! ## Comments -/

/-- Whether a line is a comment: it has `#` where its first character stands that is no blank. -/
def isComment (line : List Char) : Bool := line.find? (fun c => !isBlank c) == some '#'

/-- A text without its comment lines. -/
def uncommented (cs : List Char) : List Char := joinLines ((lines cs).filter (!isComment ·))

/-- The lines of a text side by side, trimmed, each with a blank behind it. -/
def joined (cs : List Char) : List Char := (lines cs).flatMap fun line => trim line ++ [' ']

/-- The same, where the first line goes on a line that has been begun. -/
def continued (cs : List Char) : List Char :=
  trimEnd (splitFirst (· == '\n') cs).1 ++
    ' ' :: (splitFirst (· == '\n') cs).2.flatMap fun line => trim line ++ [' ']

/-- Comments are dropped, and what is left is joined. A text of comments leaves nothing. -/
theorem flatten_eq (cs : List Char) :
    flatten cs = joined (uncommented cs) ∨ flatten cs = [] ∧ uncommented cs = [] := by
  have hfilter : ∀ rows : List (List Char),
      rows.flatMap (fun line =>
        let line := trim line
        if line.head? = some '#' then [] else line ++ [' ']) =
      (rows.filter (!isComment ·)).flatMap fun line => trim line ++ [' '] := by
    intro rows
    induction rows with
    | nil => rfl
    | cons row rows ih =>
      have hcomment : isComment row = true ↔ (trim row).head? = some '#' := by
        rw [isComment, beq_iff_eq, head?_trim]
      rw [List.flatMap_cons, ih, List.filter_cons]
      dsimp only
      by_cases h : isComment row = true
      · rw [if_pos (hcomment.1 h), if_neg (by simp [h]), List.nil_append]
      · rw [if_neg (fun hhead => h (hcomment.2 hhead)), if_pos (by simpa using h),
          List.flatMap_cons]
  rw [flatten, hfilter]
  by_cases hne : (lines cs).filter (!isComment ·) = []
  · right
    rw [uncommented, hne]
    exact ⟨rfl, rfl⟩
  · left
    have hrows : ∀ row ∈ (lines cs).filter (!isComment ·), '\n' ∉ row := by
      intro row hrow hfeed
      have := not_isSep_of_mem_split (List.mem_filter.1 hrow).1 hfeed
      simp at this
    rw [joined, uncommented, lines_joinLines hne hrows]

/-! ## Characters and blanks on one line -/

theorem joined_feed (cs : List Char) : joined ('\n' :: cs) = ' ' :: joined cs := by
  rw [joined, lines, split, splitFirst_cons_of_isSep (by simp)]
  rfl

theorem continued_feed (cs : List Char) : continued ('\n' :: cs) = ' ' :: joined cs := by
  rw [continued, splitFirst_cons_of_isSep (by simp)]
  rfl

theorem joined_eq (cs : List Char) :
    joined cs = trim (splitFirst (· == '\n') cs).1 ++
      ' ' :: (splitFirst (· == '\n') cs).2.flatMap fun line => trim line ++ [' '] := by
  rw [joined, lines, split, List.flatMap_cons, List.append_assoc]
  rfl

/-- Blanks at the front of a line are lost. -/
theorem joined_blank {c : Char} (hc : isBlank c = true) (hfeed : c ≠ '\n') (cs : List Char) :
    joined (c :: cs) = joined cs := by
  rw [joined_eq, joined_eq, splitFirst_cons_of_not_isSep (by simpa using hfeed)]
  dsimp only
  rw [trim, trimEnd_cons]
  split
  · next h => rw [trim, h.2]
  · rw [trimStart, List.dropWhile_cons_of_pos hc]
    rfl

section

variable {c : Char} (hc : isBlank c = false)

include hc

theorem ne_feed : c ≠ '\n' := by
  rintro rfl
  exact absurd hc (by decide)

theorem joined_char (cs : List Char) : joined (c :: cs) = c :: continued cs := by
  rw [joined_eq, continued, splitFirst_cons_of_not_isSep (by simpa using ne_feed hc)]
  dsimp only
  rw [trim, trimEnd_cons, if_neg (by simp [hc]), trimStart,
    List.dropWhile_cons_of_neg (by simp [hc]), List.cons_append]

theorem continued_char (cs : List Char) : continued (c :: cs) = c :: continued cs := by
  rw [continued, continued, splitFirst_cons_of_not_isSep (by simpa using ne_feed hc)]
  dsimp only
  rw [trimEnd_cons, if_neg (by simp [hc]), List.cons_append]

end

/-- A blank in a line stays, or it is at the end of the line, where a blank stands anyhow. -/
theorem continued_blank {c : Char} (hc : isBlank c = true) (hfeed : c ≠ '\n') (cs : List Char) :
    continued (c :: cs) = c :: continued cs ∨
      continued (c :: cs) = continued cs ∧ ∃ ds, continued cs = ' ' :: ds := by
  rw [continued, continued, splitFirst_cons_of_not_isSep (by simpa using hfeed)]
  dsimp only
  rw [trimEnd_cons]
  by_cases hend : trimEnd (splitFirst (· == '\n') cs).1 = []
  · rw [if_pos ⟨hc, hend⟩, hend]
    exact .inr ⟨rfl, _, rfl⟩
  · rw [if_neg (fun h => hend h.2), List.cons_append]
    exact .inl rfl

theorem continued_append {w : List Char} (hw : ∀ c ∈ w, isBlank c = false) (cs : List Char) :
    continued (w ++ cs) = w ++ continued cs := by
  induction w with
  | nil => rfl
  | cons c w ih =>
    rw [List.forall_mem_cons] at hw
    rw [List.cons_append, continued_char hw.1, ih hw.2, List.cons_append]

/-- A text begins with the character it began with, or with a blank for a blank. -/
theorem exists_continued_cons (c : Char) (cs : List Char) :
    ∃ d ds, continued (c :: cs) = d :: ds ∧ (d = c ∨ isBlank c = true ∧ isBlank d = true) := by
  by_cases hc : isBlank c = true
  · by_cases hfeed : c = '\n'
    · exact ⟨' ', joined cs, by rw [hfeed, continued_feed], .inr ⟨hc, by decide⟩⟩
    · obtain h | ⟨h, ds, hds⟩ := continued_blank hc hfeed cs
      · exact ⟨c, _, h, .inl rfl⟩
      · exact ⟨' ', ds, h.trans hds, .inr ⟨hc, by decide⟩⟩
  · exact ⟨c, _, continued_char (by simpa using hc) cs, .inl rfl⟩

/-! ## Gaps on one line -/

section

variable {gap : List Char} (hgap : Blank gap)

include hgap

/-- Blanks before a character are blanks before this character. -/
theorem exists_joined_gap {c : Char} (hc : isBlank c = false) (cs : List Char) :
    ∃ gap', Blank gap' ∧ joined (gap ++ c :: cs) = gap' ++ c :: continued cs := by
  induction gap with
  | nil => exact ⟨[], .nil, joined_char hc cs⟩
  | cons b gap ih =>
    obtain ⟨gap', hgap', h⟩ := ih hgap.tail
    by_cases hfeed : b = '\n'
    · refine ⟨' ' :: gap', .cons (by decide) hgap', ?_⟩
      rw [hfeed, List.cons_append, joined_feed, h, List.cons_append]
    · exact ⟨gap', hgap', by rw [List.cons_append, joined_blank hgap.head hfeed, h]⟩

theorem exists_continued_gap {c : Char} (hc : isBlank c = false) (cs : List Char) :
    ∃ gap', Blank gap' ∧ continued (gap ++ c :: cs) = gap' ++ c :: continued cs := by
  induction gap with
  | nil => exact ⟨[], .nil, continued_char hc cs⟩
  | cons b gap ih =>
    obtain ⟨gap', hgap', h⟩ := ih hgap.tail
    rw [List.cons_append]
    by_cases hfeed : b = '\n'
    · obtain ⟨gap', hgap', h⟩ := exists_joined_gap hgap.tail hc cs
      refine ⟨' ' :: gap', .cons (by decide) hgap', ?_⟩
      rw [hfeed, continued_feed, h, List.cons_append]
    · obtain hstay | ⟨hlost, -⟩ := continued_blank hgap.head hfeed (gap ++ c :: cs)
      · exact ⟨b :: gap', .cons hgap.head hgap', by rw [hstay, h, List.cons_append]⟩
      · exact ⟨gap', hgap', hlost.trans h⟩

theorem blank_joined : Blank (joined gap) := by
  induction gap with
  | nil => exact .cons (by decide) .nil
  | cons b gap ih =>
    by_cases hfeed : b = '\n'
    · rw [hfeed, joined_feed]
      exact .cons (by decide) (ih hgap.tail)
    · rw [joined_blank hgap.head hfeed]
      exact ih hgap.tail

theorem blank_continued : Blank (continued gap) := by
  induction gap with
  | nil => exact .cons (by decide) .nil
  | cons b gap ih =>
    by_cases hfeed : b = '\n'
    · rw [hfeed, continued_feed]
      exact .cons (by decide) (blank_joined hgap.tail)
    · obtain h | ⟨h, -⟩ := continued_blank hgap.head hfeed gap
      · rw [h]
        exact .cons hgap.head (ih hgap.tail)
      · rw [h]
        exact ih hgap.tail

end

end NeuralArch.Grammar
