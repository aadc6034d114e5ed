import NeuralArch.Proofs.Layout.Settled

/-!
# Pages on other text

What is written on a page depends on the text that is there already only by its
end.  If that has no blank at its end, marks write the same on it as on no text,
and what was written since some size is the same.  So two pages whose values
differ show the same text wherever the marks since then are the same.

* `onto`, `onto_mark` — a page on top of some text, and marks on it.
* `Twins` — pages that differ in the text below only.
* `Mark.Similar`, `twins_ofMarks` — marks that differ in their values only make such
  pages.
* `Twins.textFrom?_eq` — the text that the same marks write on them.
-/

namespace NeuralArch.Layout

open Text

namespace Page

/-! ## Text below a page -/

/-- A page on top of some text, kept in reverse. -/
def onto (p : Page) (base : List Char) : Page := { p with reversed := p.reversed ++ base }

variable {base : List Char}

theorem dropWhile_append_inked (h : Inked base) {accept : Char → Bool}
    (haccept : ∀ c, accept c = true → isBlank c = true) (r : List Char) :
    (r ++ base).dropWhile accept = r.dropWhile accept ++ base := by
  rw [List.dropWhile_append, h.dropWhile_eq haccept]
  split
  · next hnil => rw [List.isEmpty_iff.1 hnil, List.nil_append]
  · rfl

theorem onto_pad (h : Inked base) (p : Page) : (p.onto base).pad = p.pad.onto base := by
  have hhead : (p.reversed ++ base).head? = some ' ' ↔ p.reversed.head? = some ' ' := by
    cases hrev : p.reversed with
    | nil =>
      rw [List.nil_append, List.head?_nil]
      refine ⟨fun hspace => ?_, fun hnone => by simp at hnone⟩
      rw [Inked, hspace] at h
      exact absurd h (by decide)
    | cons c r => rfl
  unfold pad onto
  dsimp only
  split
  · simp
  · by_cases hspace : p.reversed.head? = some ' '
    · rw [if_pos (hhead.2 hspace), if_pos hspace]
    · rw [if_neg (mt hhead.1 hspace), if_neg hspace]
      rfl

theorem onto_newLine (h : Inked base) (p : Page) : (p.onto base).newLine = p.newLine.onto base := by
  have hdrop := dropWhile_append_inked h (fun _ => isBlank_of_eq_space) p.reversed
  simp only [newLine, onto, hdrop, List.cons_append]

theorem onto_put (p : Page) (cs : List Char) : (p.onto base).put cs = (p.put cs).onto base := by
  simp only [put, onto, List.append_assoc]

theorem onto_write (h : Inked base) (p : Page) (word : String) :
    (p.onto base).write word = (p.write word).onto base := by
  unfold write
  split
  · rfl
  · rw [onto_pad h, onto_put]

theorem onto_openBrace (h : Inked base) (p : Page) :
    (p.onto base).openBrace = p.openBrace.onto base := by
  unfold openBrace
  rw [onto_pad h, onto_put]
  exact onto_newLine h { p.pad.put ['\x7b'] with level := (p.pad.put ['\x7b']).level + 1 }

theorem onto_closeBrace (h : Inked base) (p : Page) :
    (p.onto base).closeBrace = p.closeBrace.onto base := by
  let outside : Page := { p with level := p.level - 1 }
  have hline : (if (outside.onto base).atLineStart then outside.onto base
      else (outside.onto base).newLine) =
        (if outside.atLineStart then outside else outside.newLine).onto base := by
    rw [show (outside.onto base).atLineStart = outside.atLineStart from rfl]
    split
    · rfl
    · exact onto_newLine h outside
  show ((if (outside.onto base).atLineStart then outside.onto base
    else (outside.onto base).newLine).pad.put ['\x7d']).newLine = _
  rw [hline, onto_pad h, onto_put, onto_newLine h]
  rfl

theorem onto_endStatement (h : Inked base) (p : Page) :
    (p.onto base).endStatement = p.endStatement.onto base := by
  have hdrop := dropWhile_append_inked h (fun _ hc => hc) p.reversed
  unfold endStatement
  rw [show (p.onto base).reversed = p.reversed ++ base from rfl, hdrop]
  exact onto_newLine h { p with reversed := ';' :: p.reversed.dropWhile isBlank }

/-- A mark on top of text without a blank at its end is a mark on no text. -/
theorem onto_mark (h : Inked base) (p : Page) (m : Mark) :
    (p.onto base).mark m = (p.mark m).onto base := by
  cases m with
  | word w => exact onto_write h p w
  | value w => exact onto_write h p w
  | openBrace => exact onto_openBrace h p
  | closeBrace => exact onto_closeBrace h p
  | semicolon => exact onto_endStatement h p

theorem onto_foldl_mark (h : Inked base) (p : Page) (marks : List Mark) :
    marks.foldl mark (p.onto base) = (marks.foldl mark p).onto base := by
  induction marks generalizing p with
  | nil => rfl
  | cons m marks ih => rw [List.foldl_cons, onto_mark h, ih, List.foldl_cons]

/-- The text since some size does not show what is below. -/
theorem onto_textFrom? (p q : Page) (base : List Char) :
    (q.onto base).textFrom? (p.onto base).size = q.textFrom? p.size := by
  have hsize : (p.onto base).size = byteLength base.reverse + p.size := by
    rw [size, onto, byteLength_append, byteLength_reverse, Nat.add_comm, size]
  have htext : (q.onto base).text = base.reverse ++ q.text := by
    rw [text, onto, List.reverse_append, text]
  rw [textFrom?, hsize, htext, dropBytes?_add_append, textFrom?]

/-! ## Pages that differ below -/

/-- Pages that are one page on different texts, neither of which has a blank at its end. -/
def Twins (p p' : Page) : Prop :=
  ∃ q base base', Inked base ∧ Inked base' ∧ p = onto q base ∧ p' = onto q base'

theorem twins_empty (width : Nat) : Twins (empty width) (empty width) :=
  ⟨empty width, [], [], rfl, rfl, rfl, rfl⟩

theorem Twins.mark {p p' : Page} (h : Twins p p') (m : Mark) : Twins (p.mark m) (p'.mark m) := by
  obtain ⟨q, base, base', hbase, hbase', rfl, rfl⟩ := h
  exact ⟨q.mark m, base, base', hbase, hbase', onto_mark hbase q m, onto_mark hbase' q m⟩

/-- A word that is not empty and has no blank at its end. -/
def Closed (word : String) : Prop :=
  word.isEmpty = false ∧ word.toList.getLast?.all (!isBlank ·) = true

theorem closed_of_not_isBlank {word : String} (hne : word.toList ≠ [])
    (h : ∀ c ∈ word.toList, isBlank c = false) : Closed word := by
  refine ⟨?_, ?_⟩
  · rw [← Bool.not_eq_true, String.isEmpty_iff]
    rintro rfl
    exact hne rfl
  · rw [List.getLast?_eq_some_getLast hne, Option.all_some, h _ (List.getLast_mem hne)]
    rfl

theorem inked_write (p : Page) {word : String} (h : Closed word) :
    Inked (p.write word).reversed := by
  rw [Page.write, if_neg (by simp [h.1])]
  refine inked_put _ (fun hnil => ?_) h.2
  rw [String.toList_eq_nil_iff.1 hnil] at h
  exact absurd h.1 (by decide)

/-- Making room changes the text, and the page is not at the start of a line behind it. -/
theorem pad_eq (p : Page) : p.pad = ⟨p.pad.reversed, p.level, p.width, false⟩ := by
  unfold pad
  split
  · rfl
  · next hstart =>
    rw [Bool.not_eq_true] at hstart
    split
    · rw [← hstart]
    · rw [← hstart]

/-- Behind a word only the level and the width are left of the page. -/
theorem write_eq_onto (p : Page) {word : String} (h : word.isEmpty = false) :
    p.write word = onto ⟨[], p.level, p.width, false⟩ (p.write word).reversed := by
  rw [Page.write, if_neg (by simp [h]), pad_eq]
  rfl

/-- Different words leave pages that differ below only. -/
theorem Twins.write {p p' : Page} (h : Twins p p') {word word' : String} (hword : Closed word)
    (hword' : Closed word') : Twins (p.write word) (p'.write word') := by
  obtain ⟨q, base, base', -, -, rfl, rfl⟩ := h
  exact ⟨⟨[], q.level, q.width, false⟩, _, _, inked_write _ hword, inked_write _ hword',
    write_eq_onto _ hword.1, write_eq_onto _ hword'.1⟩

/-- The same marks write the same text on pages that differ below. -/
theorem Twins.textFrom?_eq {p p' : Page} (h : Twins p p') (marks : List Mark) :
    (marks.foldl Page.mark p).textFrom? p.size =
      (marks.foldl Page.mark p').textFrom? p'.size := by
  obtain ⟨q, base, base', hbase, hbase', rfl, rfl⟩ := h
  rw [onto_foldl_mark hbase, onto_foldl_mark hbase', onto_textFrom?, onto_textFrom?]

end Page

/-! ## Marks that differ in their values -/

/-- Marks that are the same, or two values. -/
inductive Mark.Similar : Mark → Mark → Prop
  | same (m : Mark) : Similar m m
  | values {v v' : String} (hv : Page.Closed v) (hv' : Page.Closed v') :
      Similar (.value v) (.value v')

/-- Marks that differ in their values only make pages that differ below. -/
theorem twins_ofMarks (width : Nat) {marks marks' : List Mark}
    (h : List.Forall₂ Mark.Similar marks marks') :
    (Page.ofMarks width marks).Twins (Page.ofMarks width marks') := by
  have hfold : ∀ p p' : Page, p.Twins p' →
      (marks.foldl Page.mark p).Twins (marks'.foldl Page.mark p') := by
    induction h with
    | nil => exact fun p p' hp => hp
    | cons hm _ ih =>
      intro p p' hp
      refine ih _ _ ?_
      cases hm with
      | same => exact hp.mark _
      | values hv hv' => exact hp.write hv hv'
  exact hfold _ _ (Page.twins_empty width)

end NeuralArch.Layout
