import Mathlib.Data.List.Infix
import NeuralArch.Proofs.Text.Pieces

/-!
# Texts joined and split again

Texts that are joined with a separator come back when what was joined is split at
it, if no text holds the separator or a beginning of one at its end.

* `Clear` — a text that a separator cannot begin in.
* `split_clear` — a split passes over such a text.
* `toList_split_intercalate` — joined texts come back.
* `clear_feeds` — where two line feeds begin nowhere: between lines that are not empty.
-/

namespace NeuralArch.Text

open String (Slice)
open String.Slice.Pattern Model

/-- A separator begins nowhere in a text, neither inside it nor at its end with another separator
behind. -/
def Clear (sep text : String) : Prop :=
  ∀ front behind, text = front ++ behind → behind ≠ "" → ¬ sep.toList <+: (behind ++ sep).toList

theorem Clear.not_begins {sep text front behind after : String} (h : Clear sep text)
    (htext : text = front ++ behind) (hne : behind ≠ "")
    (hafter : after = "" ∨ ∃ rest, after = sep ++ rest) :
    ¬ sep.toList <+: (behind ++ after).toList := by
  have hnot := h front behind htext hne
  rw [String.toList_append] at hnot ⊢
  intro hbegins
  rcases hafter with rfl | ⟨rest, rfl⟩
  · rw [String.toList_empty, List.append_nil] at hbegins
    exact hnot (hbegins.trans (List.prefix_append _ _))
  · rw [String.toList_append, ← List.append_assoc] at hbegins
    refine hnot (List.prefix_of_prefix_length_le hbegins (List.prefix_append _ _) ?_)
    rw [List.length_append]
    exact Nat.le_add_left _ _

section

variable {sep : String} [StrictPatternModel sep] {s : Slice}

/-- A split passes over a text in which no separator begins. -/
theorem split_clear {text after : String} (h : Clear sep text)
    (hafter : after = "" ∨ ∃ rest, after = sep ++ rest) {pos stop : s.Pos} {before : String}
    (hpos : pos.Splits before (text ++ after)) (hstop : stop.Splits (before ++ text) after)
    (hle : pos ≤ stop) :
    Model.split sep pos pos (Std.le_refl _) = Model.split sep pos stop hle := by
  refine split_eq_of_not_matchesAt stop hle fun p hp hlt => ?_
  obtain ⟨front, hfront, -⟩ := (hpos.le_iff_exists_eq_append p.splits).1 hp
  obtain ⟨behind, hne, hbehind, hrest⟩ := (p.splits.lt_iff_exists_eq_append hstop).1 hlt
  have htext : text = front ++ behind := by
    rw [hfront, String.append_assoc] at hbehind
    exact String.append_right_inj before |>.1 hbehind
  rw [ForwardStringSearcher.matchesAt_iff_splits]
  rintro ⟨_, rest, hsep⟩
  refine h.not_begins htext hne hafter ⟨rest.toList, ?_⟩
  rw [← hrest, p.splits.eq_right hsep, String.toList_append]

theorem copy_slice_of_splits {text after before : String} {pos stop : s.Pos}
    (hpos : pos.Splits before (text ++ after)) (hstop : stop.Splits (before ++ text) after)
    (hle : pos ≤ stop) : (s.slice pos stop hle).copy = text := by
  obtain ⟨_, h⟩ := Slice.copy_slice_eq_iff_splits.2 ⟨before, after, hpos, hstop⟩
  exact h

/-- Joined texts are cut where they were joined. -/
theorem split_intercalate {texts : List String} (hne : texts ≠ [])
    (h : ∀ text ∈ texts, Clear sep text) {pos : s.Pos} {before : String}
    (hpos : pos.Splits before (sep.intercalate texts)) :
    (Model.split sep pos pos (Std.le_refl _)).map (·.toSlice.copy) = texts := by
  induction texts generalizing pos before with
  | nil => exact absurd rfl hne
  | cons text texts ih =>
    rw [List.forall_mem_cons] at h
    by_cases hlast : texts = []
    · subst hlast
      rw [String.intercalate_singleton, ← String.append_empty (s := text)] at hpos
      have hend : s.endPos.Splits (before ++ text) "" := by
        rw [Slice.splits_endPos_iff, hpos.eq_append, String.append_empty]
        exact ⟨rfl, rfl⟩
      rw [split_clear h.1 (.inl rfl) hpos hend pos.le_endPos, split_endPos, List.map_singleton,
        Slice.toSlice_subslice, copy_slice_of_splits hpos hend]
    · rw [String.intercalate_cons_of_ne_nil hlast, String.append_assoc] at hpos
      have hmid := hpos.splits_rotateRight
      have hstop := hmid.splits_rotateRight
      have hle := (hpos.le_iff_exists_eq_append hmid).2 ⟨text, rfl, rfl⟩
      rw [split_clear h.1 (.inr ⟨_, rfl⟩) hpos hmid hle,
        split_eq_of_isLongestMatchAt
          (ForwardStringSearcher.isLongestMatchAt_iff_splits.2 ⟨_, _, hmid, hstop⟩),
        List.map_cons, ih hlast h.2 hstop, Slice.toSlice_subslice,
        copy_slice_of_splits hpos hmid]

end

/-- Texts that are joined come back when they are split, if there are any and the separator
begins in none. -/
theorem toList_split_intercalate {sep : String} (hsep : sep ≠ "") {texts : List String}
    (hne : texts ≠ []) (h : ∀ text ∈ texts, Clear sep text) :
    ((sep.intercalate texts).split sep).toList.map Slice.copy = texts := by
  have := ForwardStringSearcher.strictPatternModel hsep
  have := ForwardStringSearcher.lawfulToForwardSearcherModel hsep
  rw [String.split_eq_split_toSlice, Slice.toList_split_eq_splitToSubslice,
    toList_splitToSubslice_eq_modelSplit, List.map_map]
  have hstart : (sep.intercalate texts).toSlice.startPos.Splits "" (sep.intercalate texts) := by
    rw [Slice.splits_startPos_iff, String.copy_toSlice]
    exact ⟨rfl, rfl⟩
  exact split_intercalate hne h hstart

/-! ## Empty lines -/

theorem lines_feed (cs : List Char) : lines ('\n' :: cs) = [] :: lines cs := by
  rw [lines, split, splitFirst_cons_of_isSep (by simp)]
  rfl

theorem lines_cons {c : Char} (hc : c ≠ '\n') (cs : List Char) :
    lines (c :: cs) = (lines cs).modifyHead (c :: ·) := by
  rw [lines, split, splitFirst_cons_of_not_isSep (by simpa using hc)]
  rfl

theorem lines_append_feed (cs ds : List Char) :
    lines (cs ++ '\n' :: ds) = lines cs ++ lines ds := by
  induction cs with
  | nil => exact lines_feed ds
  | cons c cs ih =>
    rw [List.cons_append]
    by_cases hc : c = '\n'
    · subst hc
      rw [lines_feed, lines_feed, ih, List.cons_append]
    · rw [lines_cons hc, lines_cons hc, ih]
      rfl

/-- Lines that all end in a line feed, behind which an empty one stands. -/
theorem lines_flatMap_feed {rows : List (List Char)} (h : ∀ row ∈ rows, '\n' ∉ row) :
    lines (rows.flatMap (· ++ ['\n'])) = rows ++ [[]] := by
  induction rows with
  | nil => rfl
  | cons row rows ih =>
    rw [List.forall_mem_cons] at h
    have hrow : lines row = [row] :=
      lines_joinLines (List.cons_ne_nil row []) (List.forall_mem_singleton.2 h.1)
    rw [List.flatMap_cons, List.append_assoc, List.singleton_append, lines_append_feed, hrow,
      ih h.2]
    rfl

/-- Two line feeds begin nowhere in a text without empty lines that does not end in one. -/
theorem clear_feeds {text : String} (hlines : ∀ row ∈ lines text.toList, row ≠ [])
    (hlast : text.toList.getLast? ≠ some '\n') : Clear "\n\n" text := by
  rintro front behind rfl hne hbegins
  rw [String.toList_append] at hlines hlast hbegins
  have hfeeds : "\n\n".toList = ['\n', '\n'] := rfl
  rw [hfeeds] at hbegins
  match hbehind : behind.toList with
  | [] => exact hne (String.toList_eq_nil_iff.1 hbehind)
  | [c] =>
    rw [hbehind] at hbegins hlast
    obtain rfl := (List.cons_prefix_cons.1 hbegins).1
    exact hlast (List.getLast?_concat ..)
  | c :: d :: rest =>
    rw [hbehind, List.cons_append, List.cons_append] at hbegins
    obtain ⟨rfl, htail⟩ := List.cons_prefix_cons.1 hbegins
    obtain ⟨rfl, -⟩ := List.cons_prefix_cons.1 htail
    refine hlines [] ?_ rfl
    rw [hbehind, lines_append_feed, lines_feed]
    exact List.mem_append_right _ List.mem_cons_self

end NeuralArch.Text
