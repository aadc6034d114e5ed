import NeuralArch.Layout.Tidy
import NeuralArch.Proofs.Lexing.Scan

/-!
# Tidy text has the same words

Each step of tidying moves blanks at places where words end anyway: before and
behind punctuation, and at the ends of lines.

* `Gathers` — what is gathered from a text line by line is gathered from its tidy lines.
* `scan_tidy` — the words stay.
* `mem_tidy` — no characters appear but spaces, line feeds and braces.
-/

namespace NeuralArch.Layout

open Text Lexing

theorem isBlank_of_isGap {c : Char} (h : isGap c = true) : isBlank c = true := by
  simp only [isGap, Bool.or_eq_true, beq_iff_eq] at h
  rcases h with rfl | rfl <;> decide

theorem isMark_of_isCloser {c : Char} (h : isCloser c = true) : isMark c = true := by
  simp only [isCloser, Bool.or_eq_true, beq_iff_eq] at h
  rcases h with (rfl | rfl) | rfl <;> decide

/-! ## Gaps at brackets and closers -/

/-- A gap before a closer separates nothing. -/
theorem scan_tightenClosers (cs : List Char) :
    scan (tightenClosers cs) = scan cs ∧ startsInner (tightenClosers cs) = startsInner cs := by
  induction cs with
  | nil => exact ⟨rfl, rfl⟩
  | cons c cs ih =>
    obtain ⟨hscan, hstart⟩ := ih
    rw [tightenClosers]
    split
    · next h =>
      rw [Bool.and_eq_true] at h
      obtain ⟨hgap, hcloser⟩ := h
      have hblank := isBlank_of_isGap hgap
      refine ⟨by rw [scan_cons_of_isBlank hblank, hscan], ?_⟩
      rw [startsInner_cons, isInner_of_isBlank hblank]
      -- What stands in front now is the closer.
      match hrest : tightenClosers cs with
      | [] => rfl
      | d :: ds =>
        rw [hrest, List.head?_cons, Option.any_some] at hcloser
        exact isInner_of_isMark (isMark_of_isCloser hcloser)
    · exact ⟨scan_cons_congr c hscan hstart, rfl⟩

/-- A gap behind a bracket separates nothing. -/
theorem scan_tightenBracketsFrom (afterBracket : Bool) (cs : List Char) :
    scan (tightenBracketsFrom afterBracket cs) = scan cs ∧
      (afterBracket = false → startsInner (tightenBracketsFrom afterBracket cs) =
        startsInner cs) := by
  induction cs generalizing afterBracket with
  | nil => exact ⟨rfl, fun _ => rfl⟩
  | cons c cs ih =>
    rw [tightenBracketsFrom]
    split
    · next h =>
      rw [Bool.and_eq_true] at h
      obtain ⟨rfl, hgap⟩ := h
      refine ⟨?_, fun h => Bool.noConfusion h⟩
      rw [(ih true).1, scan_cons_of_isBlank (isBlank_of_isGap hgap)]
    · refine ⟨?_, fun _ => rfl⟩
      by_cases hbracket : c = '['
      · subst hbracket
        have hmark : isMark '[' = true := by decide
        rw [scan_cons_of_isMark hmark, scan_cons_of_isMark hmark, (ih _).1]
      · have hfalse : (c == '[') = false := by simpa using hbracket
        rw [hfalse]
        exact scan_cons_congr c (ih false).1 ((ih false).2 rfl)

theorem scan_tightenBrackets (cs : List Char) : scan (tightenBrackets cs) = scan cs :=
  (scan_tightenBracketsFrom false cs).1

/-! ## Opening braces -/

theorem afterBrace?_eq_some_iff {cs rest : List Char} :
    afterBrace? cs = some rest ↔ cs.dropWhile isGap = '\x7b' :: rest := by
  unfold afterBrace?
  split
  · next tail htail => rw [htail, Option.some.injEq, List.cons.injEq, eq_self, true_and]
  · next hother =>
    constructor
    · intro h
      exact absurd h.symm (Option.some_ne_none rest)
    · exact fun h => absurd h (hother rest)

/-- A brace, and nothing but a gap before it. -/
theorem exists_gap_of_afterBrace? {cs rest : List Char} (h : afterBrace? cs = some rest) :
    ∃ gap, cs = gap ++ '\x7b' :: rest ∧ ∀ c ∈ gap, isGap c = true := by
  refine ⟨cs.takeWhile isGap, ?_, fun c hc => List.all_eq_true.1 List.all_takeWhile c hc⟩
  rw [← afterBrace?_eq_some_iff.1 h, List.takeWhile_append_dropWhile]

/-- A brace that only a gap stands before ends the word there. -/
theorem scan_of_afterBrace? {cs rest : List Char} (h : afterBrace? cs = some rest) :
    scan cs = ['\x7b'] :: scan rest ∧ startsInner cs = false := by
  obtain ⟨gap, rfl, hgap⟩ := exists_gap_of_afterBrace? h
  have hblanks : ∀ c ∈ gap, isBlank c = true := fun c hc => isBlank_of_isGap (hgap c hc)
  have hmark : isMark '\x7b' = true := by decide
  constructor
  · rw [scan_blanks_append hblanks, scan_cons_of_isMark hmark]
  · cases gap with
    | nil => exact isInner_of_isMark hmark
    | cons c gap => exact isInner_of_isBlank (hblanks c (List.mem_cons_self ..))

theorem scan_spaceBraces (cs : List Char) :
    scan (spaceBraces cs) = scan cs ∧ startsInner (spaceBraces cs) = startsInner cs := by
  fun_induction spaceBraces cs with
  | case1 => exact ⟨rfl, rfl⟩
  | case2 c cs hblank ih =>
    exact ⟨scan_cons_congr c ih.1 ih.2, rfl⟩
  | case3 c cs hblank rest h _ ih =>
    obtain ⟨hscan, hstart⟩ := scan_of_afterBrace? h
    refine ⟨?_, rfl⟩
    have hspace : isBlank ' ' = true := by decide
    have hmark : isMark '\x7b' = true := by decide
    apply scan_cons_congr
    · rw [scan_cons_of_isBlank hspace, scan_cons_of_isMark hmark, ih.1, hscan]
    · rw [hstart, startsInner_cons, isInner_of_isBlank hspace]
  | case4 c cs hblank h ih =>
    exact ⟨scan_cons_congr c ih.1 ih.2, rfl⟩

/-! ## Lines -/

/-- What is gathered from a text line by line, line feeds apart. -/
structure Gathers {α : Type} (f : List Char → List α) : Prop where
  nil : f [] = []
  feed : ∀ cs ds, f (cs ++ '\n' :: ds) = f cs ++ f ds

namespace Gathers

variable {α : Type} {f : List Char → List α}

theorem lines (h : Gathers f) (cs : List Char) : (Text.lines cs).flatMap f = f cs := by
  have happend : ∀ (piece : List Char) (pieces : List (List Char)),
      f (piece ++ pieces.flatMap ('\n' :: ·)) = f piece ++ pieces.flatMap f := by
    intro piece pieces
    induction pieces generalizing piece with
    | nil => simp
    | cons next pieces ih =>
      rw [List.flatMap_cons, List.flatMap_cons, List.cons_append, h.feed, ih]
  conv_rhs => rw [← intercalate_splitFirst '\n' cs, happend]
  rw [Text.lines, split, List.flatMap_cons]

theorem joinLines (h : Gathers f) (ls : List (List Char)) :
    f (Layout.joinLines ls) = ls.flatMap f := by
  fun_induction Layout.joinLines ls with
  | case1 => exact h.nil
  | case2 l => simp
  | case3 l ls hne ih => rw [h.feed, ih, List.flatMap_cons]

/-- A line without characters gives nothing, so it may be left out. -/
theorem filter (h : Gathers f) (ls : List (List Char)) :
    (ls.filter (!·.isEmpty)).flatMap f = ls.flatMap f := by
  induction ls with
  | nil => rfl
  | cons l ls ih =>
    rw [List.filter_cons, List.flatMap_cons]
    split
    · rw [List.flatMap_cons, ih]
    · next hempty =>
      have hl : l = [] := by simpa using hempty
      rw [ih, hl, h.nil, List.nil_append]

/-- What is gathered from a text is gathered from its tidy lines, if it does not see the blanks
at the end of a line. -/
theorem tidyLines (h : Gathers f) (htrim : ∀ l, f (trimEnd l) = f l) (cs : List Char) :
    f (Layout.tidyLines cs) = f cs := by
  rw [Layout.tidyLines, h.joinLines, h.filter, List.flatMap_map, ← h.lines cs]
  simp only [htrim]

end Gathers

theorem gathers_scan : Gathers scan :=
  ⟨scan_nil, scan_append_cons_of_isBlank (by decide)⟩

theorem scan_trimEnd (cs : List Char) : scan (trimEnd cs) = scan cs := by
  obtain ⟨blanks, hcs, hblanks⟩ := exists_trimEnd_append cs
  conv_rhs => rw [hcs]
  rw [scan_append_blanks hblanks]

/-- Tidying keeps the words. -/
theorem scan_tidy (cs : List Char) : scan (tidy cs) = scan cs := by
  rw [tidy, gathers_scan.tidyLines scan_trimEnd, (scan_spaceBraces _).1, scan_tightenBrackets,
    (scan_tightenClosers _).1]

/-! ## Characters -/

theorem mem_tightenClosers {c : Char} {cs : List Char} (h : c ∈ tightenClosers cs) : c ∈ cs := by
  induction cs with
  | nil => exact h
  | cons d cs ih =>
    rw [tightenClosers] at h
    split at h
    · exact List.mem_cons_of_mem _ (ih h)
    · rcases List.mem_cons.1 h with rfl | h
      · exact List.mem_cons_self ..
      · exact List.mem_cons_of_mem _ (ih h)

theorem mem_tightenBracketsFrom {c : Char} {afterBracket : Bool} {cs : List Char}
    (h : c ∈ tightenBracketsFrom afterBracket cs) : c ∈ cs := by
  induction cs generalizing afterBracket with
  | nil => exact h
  | cons d cs ih =>
    rw [tightenBracketsFrom] at h
    split at h
    · exact List.mem_cons_of_mem _ (ih h)
    · rcases List.mem_cons.1 h with rfl | h
      · exact List.mem_cons_self ..
      · exact List.mem_cons_of_mem _ (ih h)

theorem mem_of_afterBrace? {c : Char} {cs rest : List Char} (h : afterBrace? cs = some rest)
    (hc : c ∈ rest) : c ∈ cs := by
  obtain ⟨gap, rfl, -⟩ := exists_gap_of_afterBrace? h
  exact List.mem_append_right _ (List.mem_cons_of_mem _ hc)

theorem mem_spaceBraces {c : Char} {cs : List Char} (h : c ∈ spaceBraces cs) :
    c ∈ cs ∨ c = ' ' ∨ c = '\x7b' := by
  fun_induction spaceBraces cs with
  | case1 => exact .inl h
  | case2 d cs hblank ih =>
    rcases List.mem_cons.1 h with rfl | h
    · exact .inl (List.mem_cons_self ..)
    · exact (ih h).imp_left (List.mem_cons_of_mem _)
  | case3 d cs hblank rest hrest _ ih =>
    simp only [List.mem_cons] at h
    rcases h with rfl | rfl | rfl | h
    · exact .inl (List.mem_cons_self ..)
    · exact .inr (.inl rfl)
    · exact .inr (.inr rfl)
    · exact (ih h).imp_left fun hc => List.mem_cons_of_mem _ (mem_of_afterBrace? hrest hc)
  | case4 d cs hblank hrest ih =>
    rcases List.mem_cons.1 h with rfl | h
    · exact .inl (List.mem_cons_self ..)
    · exact (ih h).imp_left (List.mem_cons_of_mem _)

theorem mem_joinLines {c : Char} {ls : List (List Char)} (h : c ∈ joinLines ls) :
    (∃ l ∈ ls, c ∈ l) ∨ c = '\n' := by
  fun_induction joinLines ls with
  | case1 => simp at h
  | case2 l => exact .inl ⟨l, by simp, h⟩
  | case3 l ls hne ih =>
    rcases List.mem_append.1 h with h | h
    · exact .inl ⟨l, List.mem_cons_self .., h⟩
    · rcases List.mem_cons.1 h with rfl | h
      · exact .inr rfl
      · rcases ih h with ⟨l', hl', hc⟩ | hc
        · exact .inl ⟨l', List.mem_cons_of_mem _ hl', hc⟩
        · exact .inr hc

theorem mem_of_mem_lines {c : Char} {cs l : List Char} (hl : l ∈ lines cs) (hc : c ∈ l) :
    c ∈ cs := by
  rw [← intercalate_splitFirst '\n' cs]
  rw [lines, split] at hl
  rcases List.mem_cons.1 hl with rfl | hl
  · exact List.mem_append_left _ hc
  · exact List.mem_append_right _
      (List.mem_flatMap.2 ⟨l, hl, List.mem_cons_of_mem _ hc⟩)

theorem mem_tidyLines {c : Char} {cs : List Char} (h : c ∈ tidyLines cs) :
    c ∈ cs ∨ c = '\n' := by
  rcases mem_joinLines h with ⟨l, hl, hc⟩ | hc
  · left
    obtain ⟨l', hl', rfl⟩ := List.mem_map.1 (List.mem_filter.1 hl).1
    obtain ⟨blanks, hsplit, -⟩ := exists_trimEnd_append l'
    apply mem_of_mem_lines hl'
    rw [hsplit]
    exact List.mem_append_left _ hc
  · exact .inr hc

/-- No characters appear but spaces, braces and line feeds. -/
theorem mem_tidy {c : Char} {cs : List Char} (h : c ∈ tidy cs) :
    c ∈ cs ∨ c = ' ' ∨ c = '\x7b' ∨ c = '\n' := by
  rcases mem_tidyLines h with h | h
  · rcases mem_spaceBraces h with h | h | h
    · exact .inl (mem_tightenClosers (mem_tightenBracketsFrom h))
    · exact .inr (.inl h)
    · exact .inr (.inr (.inl h))
  · exact .inr (.inr (.inr h))

end NeuralArch.Layout
