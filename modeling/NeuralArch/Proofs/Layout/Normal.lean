import Mathlib.Data.List.Chain
import NeuralArch.Proofs.Layout.Code
import NeuralArch.Proofs.Text.Pieces

/-!
# Tidy text is a normal form

No step of tidying looks across a line feed, so a text is tidied line by line.
Within a line the steps do undo each other's work: a brace is set apart from a
bracket before it by a space, and that space is a gap behind a bracket, which
the second tidying takes out and puts back.  What a line looks like between the
two is described by `Aligned`, where every brace has the partner that it had.

* `Linewise` — what a text becomes line by line; the three steps do.
* `Tight` — no gap before a closer; no later step opens one.
* `Aligned` — braces that tidying leaves where they are.
* `tidyLine_tidyLine` — a tidy line stays as it is.
* `tidyText_normal` — so does a tidy text, and what can be said of its lines.
-/

namespace NeuralArch.Layout

open Text

/-! ## Lines -/

/-- What a text becomes line by line, its line feeds kept. -/
structure Linewise (f : List Char → List Char) : Prop where
  feed : ∀ cs ds, f (cs ++ '\n' :: ds) = f cs ++ '\n' :: f ds
  free : ∀ cs, '\n' ∉ cs → '\n' ∉ f cs

namespace Linewise

variable {f g : List Char → List Char}

theorem comp (hf : Linewise f) (hg : Linewise g) : Linewise (f ∘ g) where
  feed cs ds := by rw [Function.comp_apply, hg.feed, hf.feed, Function.comp_apply,
    Function.comp_apply]
  free cs h := hf.free _ (hg.free cs h)

theorem joinLines (h : Linewise f) {rows : List (List Char)} (hne : rows ≠ []) :
    f (Layout.joinLines rows) = Layout.joinLines (rows.map f) := by
  fun_induction Layout.joinLines rows with
  | case1 => exact absurd rfl hne
  | case2 row => rfl
  | case3 row rows hrows ih =>
    rw [h.feed, ih hrows, List.map_cons, Layout.joinLines]
    exact fun hnil => hrows (List.map_eq_nil_iff.1 hnil)

end Linewise

theorem lines_ne_nil (cs : List Char) : lines cs ≠ [] := List.cons_ne_nil _ _

theorem joinLines_cons (row : List Char) (rows : List (List Char)) :
    joinLines (row :: rows) = row ++ rows.flatMap ('\n' :: ·) := by
  induction rows generalizing row with
  | nil => simp [joinLines]
  | cons next rows ih =>
    rw [joinLines, ih, List.flatMap_cons]
    · rfl
    · simp

theorem joinLines_lines (cs : List Char) : joinLines (lines cs) = cs :=
  (joinLines_cons _ _).trans (intercalate_splitFirst '\n' cs)

theorem feed_not_mem_of_mem_lines {cs row : List Char} (h : row ∈ lines cs) : '\n' ∉ row := by
  intro hfeed
  have hsep := not_isSep_of_mem_split h hfeed
  exact absurd hsep (by decide)

theorem Linewise.lines {f : List Char → List Char} (h : Linewise f) (cs : List Char) :
    Text.lines (f cs) = (Text.lines cs).map f := by
  have hrows : ∀ row ∈ (Text.lines cs).map f, '\n' ∉ row := by
    intro row hrow
    obtain ⟨row', hrow', rfl⟩ := List.mem_map.1 hrow
    exact h.free row' (feed_not_mem_of_mem_lines hrow')
  have hne : (Text.lines cs).map f ≠ [] := by
    rw [Ne, List.map_eq_nil_iff]
    exact lines_ne_nil cs
  conv_lhs => rw [← joinLines_lines cs, h.joinLines (lines_ne_nil cs)]
  exact lines_joinLines hne hrows

/-! ## The steps go by lines -/

theorem linewise_tightenClosers : Linewise tightenClosers where
  feed cs ds := by
    induction cs with
    | nil => rfl
    | cons c cs ih =>
      rw [List.cons_append, tightenClosers, tightenClosers, ih]
      -- A line feed is no closer, and neither is the end of a text.
      have hhead : (tightenClosers cs ++ '\n' :: tightenClosers ds).head?.any isCloser =
          (tightenClosers cs).head?.any isCloser := by
        cases tightenClosers cs <;> rfl
      rw [hhead]
      split <;> rfl
  free cs h hfeed := h (mem_tightenClosers hfeed)

theorem tightenBracketsFrom_feed (afterBracket : Bool) (cs ds : List Char) :
    tightenBracketsFrom afterBracket (cs ++ '\n' :: ds) =
      tightenBracketsFrom afterBracket cs ++ '\n' :: tightenBrackets ds := by
  induction cs generalizing afterBracket with
  | nil => cases afterBracket <;> rfl
  | cons c cs ih =>
    rw [List.cons_append, tightenBracketsFrom, tightenBracketsFrom]
    split
    · exact ih true
    · rw [ih]
      rfl

theorem linewise_tightenBrackets : Linewise tightenBrackets where
  feed := tightenBracketsFrom_feed false
  free _ h hfeed := h (mem_tightenBracketsFrom hfeed)

theorem afterBrace?_feed (cs ds : List Char) :
    afterBrace? (cs ++ '\n' :: ds) = (afterBrace? cs).map (· ++ '\n' :: ds) := by
  have hdrop : (cs ++ '\n' :: ds).dropWhile isGap = cs.dropWhile isGap ++ '\n' :: ds := by
    induction cs with
    | nil => rfl
    | cons c cs ih =>
      rw [List.cons_append, List.dropWhile_cons, List.dropWhile_cons]
      split
      · exact ih
      · rfl
  ext rest
  rw [afterBrace?_eq_some_iff, hdrop, Option.map_eq_some_iff]
  simp only [afterBrace?_eq_some_iff]
  constructor
  · intro h
    match hcs : cs.dropWhile isGap, h with
    | [], h => exact absurd (List.cons.inj h).1 (by decide)
    | c :: tail, h =>
      obtain ⟨rfl, rfl⟩ := List.cons.inj h
      exact ⟨tail, rfl, rfl⟩
  · rintro ⟨tail, htail, rfl⟩
    rw [htail, List.cons_append]

theorem linewise_spaceBraces : Linewise spaceBraces where
  feed cs ds := by
    fun_induction spaceBraces cs with
    | case1 => exact spaceBraces_cons_of_isBlank (by decide) ds
    | case2 c cs hblank ih =>
      rw [List.cons_append, spaceBraces_cons_of_isBlank hblank, ih, List.cons_append]
    | case3 c cs hblank rest h _ ih =>
      have hfeed : afterBrace? (cs ++ '\n' :: ds) = some (rest ++ '\n' :: ds) := by
        rw [afterBrace?_feed, h, Option.map_some]
      rw [List.cons_append, spaceBraces_cons_of_brace (by simpa using hblank) hfeed, ih]
      rfl
    | case4 c cs hblank h ih =>
      have hfeed : afterBrace? (cs ++ '\n' :: ds) = none := by
        rw [afterBrace?_feed, h, Option.map_none]
      rw [List.cons_append, spaceBraces_cons_of_none hfeed, ih, List.cons_append]
  free cs h hfeed := by
    rcases mem_spaceBraces hfeed with hmem | hspace | hbrace
    · exact h hmem
    · exact absurd hspace (by decide)
    · exact absurd hbrace (by decide)

/-- What tidying does to a line. -/
def tidyLine (row : List Char) : List Char :=
  trimEnd (spaceBraces (tightenBrackets (tightenClosers row)))

/-- A text is tidied line by line, and lines without ink are left out. -/
theorem tidy_eq (cs : List Char) :
    tidy cs = joinLines (((lines cs).map tidyLine).filter (!·.isEmpty)) := by
  have hsteps := linewise_spaceBraces.comp (linewise_tightenBrackets.comp linewise_tightenClosers)
  have hlines := hsteps.lines cs
  simp only [Function.comp_apply] at hlines
  rw [tidy, tidyLines, hlines, List.map_map]
  rfl

/-! ## Closers -/

/-- No gap stands before a closer. -/
def Tight (cs : List Char) : Prop :=
  cs.IsChain fun c d => isGap c = true → isCloser d = false

theorem tight_tightenClosers (cs : List Char) : Tight (tightenClosers cs) := by
  induction cs with
  | nil => exact List.isChain_nil
  | cons c cs ih =>
    rw [tightenClosers]
    split
    · exact ih
    · next h =>
      refine List.isChain_cons.2 ⟨fun d hd hgap => ?_, ih⟩
      rw [hgap, Bool.true_and, Option.mem_def.1 hd, Option.any_some] at h
      simpa using h

/-- Without gaps before closers nothing is dropped. -/
theorem Tight.tightenClosers_eq {cs : List Char} (h : Tight cs) : tightenClosers cs = cs := by
  induction cs with
  | nil => rfl
  | cons c cs ih =>
    obtain ⟨hhead, htail⟩ := List.isChain_cons.1 h
    rw [tightenClosers, ih htail]
    refine if_neg fun hdrop => ?_
    rw [Bool.and_eq_true, Option.any_eq_true] at hdrop
    obtain ⟨hgap, d, hd, hcloser⟩ := hdrop
    rw [hhead d hd hgap] at hcloser
    exact Bool.noConfusion hcloser

theorem ne_bracket_of_isBlank {c : Char} (h : isBlank c = true) : (c == '[') = false := by
  rw [beq_eq_false_iff_ne]
  rintro rfl
  exact absurd h (by decide)

theorem head?_tightenBracketsFrom_false (cs : List Char) :
    (tightenBracketsFrom false cs).head? = cs.head? := by
  cases cs <;> rfl

theorem Tight.tightenBracketsFrom {cs : List Char} (h : Tight cs) (afterBracket : Bool) :
    Tight (tightenBracketsFrom afterBracket cs) := by
  induction cs generalizing afterBracket with
  | nil => exact List.isChain_nil
  | cons c cs ih =>
    obtain ⟨hhead, htail⟩ := List.isChain_cons.1 h
    rw [Layout.tightenBracketsFrom]
    split
    · exact ih htail true
    · refine List.isChain_cons.2 ⟨fun d hd hgap => hhead d ?_ hgap, ih htail _⟩
      rwa [ne_bracket_of_isBlank (isBlank_of_isGap hgap), head?_tightenBracketsFrom_false] at hd

theorem head?_spaceBraces (cs : List Char) : (spaceBraces cs).head? = cs.head? := by
  fun_cases spaceBraces cs <;> rfl

theorem not_isGap_of_not_isBlank {c : Char} (h : isBlank c = false) : isGap c = false := by
  rw [Bool.eq_false_iff]
  intro hgap
  rw [isBlank_of_isGap hgap] at h
  exact Bool.noConfusion h

theorem Tight.of_afterBrace? {cs rest : List Char} (h : Tight cs)
    (hrest : afterBrace? cs = some rest) : Tight rest := by
  obtain ⟨gap, rfl, -⟩ := exists_gap_of_afterBrace? hrest
  have hsuffix : rest <:+ gap ++ '\x7b' :: rest :=
    (List.suffix_cons _ _).trans (List.suffix_append _ _)
  exact h.suffix hsuffix

theorem Tight.spaceBraces {cs : List Char} (h : Tight cs) : Tight (spaceBraces cs) := by
  fun_induction Layout.spaceBraces cs with
  | case1 => exact List.isChain_nil
  | case2 c cs hblank ih =>
    obtain ⟨hhead, htail⟩ := List.isChain_cons.1 h
    exact List.isChain_cons.2 ⟨by rwa [head?_spaceBraces], ih htail⟩
  | case3 c cs hblank rest hrest _ ih =>
    obtain ⟨-, htail⟩ := List.isChain_cons.1 h
    have hc := not_isGap_of_not_isBlank (by simpa using hblank)
    have hbrace : Tight ('\x7b' :: Layout.spaceBraces rest) :=
      List.isChain_cons.2 ⟨fun _ _ hgap => absurd hgap (by decide),
        ih (Tight.of_afterBrace? htail hrest)⟩
    exact .cons_cons (fun hgap => absurd hgap (by simp [hc])) (.cons_cons (fun _ => rfl) hbrace)
  | case4 c cs hblank hnone ih =>
    obtain ⟨hhead, htail⟩ := List.isChain_cons.1 h
    exact List.isChain_cons.2 ⟨by rwa [head?_spaceBraces], ih htail⟩

theorem Tight.trimEnd {cs : List Char} (h : Tight cs) : Tight (trimEnd cs) := by
  obtain ⟨blanks, hcs, -⟩ := exists_trimEnd_append cs
  exact h.prefix ⟨blanks, hcs.symm⟩

theorem tight_tidyLine (row : List Char) : Tight (tidyLine row) :=
  ((tight_tightenClosers row).tightenBracketsFrom false).spaceBraces.trimEnd

/-! ## Braces -/

/-- Text whose braces stand where tidying puts them: one space from a partner before them, and
no gap behind a bracket but before such a brace.  The flag says that a bracket without a brace
stands before. -/
inductive Aligned : Bool → List Char → Prop
  | nil {afterBracket : Bool} : Aligned afterBracket []
  | blank {afterBracket : Bool} {c : Char} {cs : List Char} (hblank : isBlank c = true)
      (hgap : afterBracket = true → isGap c = false) (hcs : Aligned false cs) :
      Aligned afterBracket (c :: cs)
  | brace {afterBracket : Bool} {c : Char} {cs : List Char} (hc : isBlank c = false)
      (hcs : Aligned false cs) : Aligned afterBracket (c :: ' ' :: '\x7b' :: cs)
  | other {afterBracket : Bool} {c : Char} {cs : List Char} (hc : isBlank c = false)
      (hnone : afterBrace? cs = none) (hcs : Aligned (c == '[') cs) :
      Aligned afterBracket (c :: cs)

/-- Whether a brace follows is decided by the first character that is no gap. -/
theorem afterBrace?_eq_none_iff {cs : List Char} :
    afterBrace? cs = none ↔ (cs.dropWhile isGap).head? ≠ some '\x7b' := by
  rw [Option.eq_none_iff_forall_ne_some]
  simp only [Ne, afterBrace?_eq_some_iff]
  cases cs.dropWhile isGap with
  | nil => simp
  | cons d ds => simp

/-- No gap stands behind an opening bracket. -/
def Bracketed (cs : List Char) : Prop :=
  cs.IsChain fun c d => c = '[' → isGap d = false

theorem not_isGap_of_head?_tightenBracketsFrom {cs : List Char} :
    ∀ d ∈ (tightenBracketsFrom true cs).head?, isGap d = false := by
  induction cs with
  | nil => exact nofun
  | cons c cs ih =>
    rw [tightenBracketsFrom]
    split
    · exact ih
    · next h =>
      rintro d hd
      obtain rfl := Option.some.inj hd
      simpa using h

theorem bracketed_tightenBracketsFrom (afterBracket : Bool) (cs : List Char) :
    Bracketed (tightenBracketsFrom afterBracket cs) := by
  induction cs generalizing afterBracket with
  | nil => exact List.isChain_nil
  | cons c cs ih =>
    rw [tightenBracketsFrom]
    split
    · exact ih true
    · refine List.isChain_cons.2 ⟨?_, ih _⟩
      rintro d hd rfl
      exact not_isGap_of_head?_tightenBracketsFrom d hd

theorem head?_dropWhile_spaceBraces (cs : List Char) :
    ((spaceBraces cs).dropWhile isGap).head? = (cs.dropWhile isGap).head? := by
  fun_induction spaceBraces cs with
  | case1 => rfl
  | case2 c cs hblank ih =>
    rw [List.dropWhile_cons, List.dropWhile_cons]
    split
    · exact ih
    · rfl
  | case3 c cs hblank rest hrest _ ih =>
    have hc := not_isGap_of_not_isBlank (by simpa using hblank)
    rw [List.dropWhile_cons_of_neg (by simp [hc]), List.dropWhile_cons_of_neg (by simp [hc])]
    rfl
  | case4 c cs hblank hnone ih =>
    have hc := not_isGap_of_not_isBlank (by simpa using hblank)
    rw [List.dropWhile_cons_of_neg (by simp [hc]), List.dropWhile_cons_of_neg (by simp [hc])]
    rfl

/-- What is spaced is aligned, if no gap stands behind a bracket. -/
theorem aligned_spaceBraces {cs : List Char} (h : Bracketed cs) {afterBracket : Bool}
    (hhead : ∀ d ∈ cs.head?, afterBracket = true → isGap d = false) :
    Aligned afterBracket (spaceBraces cs) := by
  fun_induction spaceBraces cs generalizing afterBracket with
  | case1 => exact .nil
  | case2 c cs hblank ih =>
    exact .blank hblank (hhead c rfl) (ih (List.isChain_cons.1 h).2 (by simp))
  | case3 c cs hblank rest hrest _ ih =>
    obtain ⟨gap, rfl, -⟩ := exists_gap_of_afterBrace? hrest
    have hsuffix : rest <:+ c :: (gap ++ '\x7b' :: rest) :=
      ((List.suffix_cons _ _).trans (List.suffix_append _ _)).trans (List.suffix_cons _ _)
    exact .brace (by simpa using hblank) (ih (h.suffix hsuffix) (by simp))
  | case4 c cs hblank hnone ih =>
    obtain ⟨hbracket, htail⟩ := List.isChain_cons.1 h
    refine .other (by simpa using hblank) ?_
      (ih htail fun d hd hc => hbracket d hd (by simpa using hc))
    rw [afterBrace?_eq_none_iff, head?_dropWhile_spaceBraces, ← afterBrace?_eq_none_iff]
    exact hnone

/-- A trimmed line ends in ink, so no brace loses the character before it. -/
theorem Aligned.trimEnd {afterBracket : Bool} {cs : List Char} (h : Aligned afterBracket cs) :
    Aligned afterBracket (trimEnd cs) := by
  induction h with
  | nil => exact .nil
  | blank hblank hgap _ ih =>
    rw [trimEnd_cons]
    split
    · exact .nil
    · exact .blank hblank hgap ih
  | @brace _ c cs hc _ ih =>
    have hink : ∀ d : Char, isBlank d = false →
        ∀ ds, Text.trimEnd (d :: ds) = d :: Text.trimEnd ds := by
      intro d hd ds
      rw [trimEnd_cons, if_neg (by simp [hd])]
    have hspace : Text.trimEnd (' ' :: '\x7b' :: cs) = ' ' :: '\x7b' :: Text.trimEnd cs := by
      rw [trimEnd_cons, hink '\x7b' (by decide), if_neg (by simp)]
    rw [hink c hc, hspace]
    exact .brace hc ih
  | @other _ c cs hc hnone _ ih =>
    rw [trimEnd_cons, if_neg (by simp [hc])]
    refine .other hc ?_ ih
    obtain ⟨blanks, hcs, -⟩ := exists_trimEnd_append cs
    rw [Option.eq_none_iff_forall_ne_some] at hnone ⊢
    intro rest hrest
    obtain ⟨gap, htrim, hgap⟩ := exists_gap_of_afterBrace? hrest
    refine hnone (rest ++ blanks) (afterBrace?_eq_some_iff.2 ?_)
    rw [hcs, htrim, List.append_assoc, List.dropWhile_append_of_pos hgap,
      List.cons_append, List.dropWhile_cons_of_neg (by decide)]

theorem head?_dropWhile_tightenBracketsFrom (afterBracket : Bool) (cs : List Char) :
    ((tightenBracketsFrom afterBracket cs).dropWhile isGap).head? =
      (cs.dropWhile isGap).head? := by
  induction cs generalizing afterBracket with
  | nil => rfl
  | cons c cs ih =>
    rw [tightenBracketsFrom]
    split
    · next h =>
      rw [Bool.and_eq_true] at h
      rw [List.dropWhile_cons_of_pos h.2]
      exact ih true
    · rw [List.dropWhile_cons, List.dropWhile_cons]
      split
      · exact ih _
      · rfl

/-- Aligned text comes back: the spaces taken out behind brackets are those before their
braces. -/
theorem Aligned.spaceBraces_eq {afterBracket : Bool} {cs : List Char}
    (h : Aligned afterBracket cs) : spaceBraces (tightenBracketsFrom afterBracket cs) = cs := by
  induction h with
  | nil => rw [tightenBracketsFrom, spaceBraces.eq_def]
  | @blank afterBracket c cs hblank hgap _ ih =>
    have hkept : (afterBracket && isGap c) = false := by
      cases afterBracket with
      | false => rfl
      | true => exact hgap rfl
    rw [tightenBracketsFrom, hkept, if_neg Bool.false_ne_true, ne_bracket_of_isBlank hblank,
      spaceBraces_cons_of_isBlank hblank, ih]
  | @brace afterBracket c cs hc _ ih =>
    have hbrace : afterBrace? (tightenBracketsFrom (c == '[') (' ' :: '\x7b' :: cs)) =
        some (tightenBracketsFrom false cs) := by
      cases c == '[' <;> rfl
    rw [tightenBracketsFrom, not_isGap_of_not_isBlank hc, Bool.and_false,
      if_neg Bool.false_ne_true, spaceBraces_cons_of_brace hc hbrace, ih]
  | @other afterBracket c cs hc hnone _ ih =>
    have hnone' : afterBrace? (tightenBracketsFrom (c == '[') cs) = none := by
      rw [afterBrace?_eq_none_iff, head?_dropWhile_tightenBracketsFrom,
        ← afterBrace?_eq_none_iff]
      exact hnone
    rw [tightenBracketsFrom, not_isGap_of_not_isBlank hc, Bool.and_false,
      if_neg Bool.false_ne_true, spaceBraces_cons_of_none hnone', ih]

/-! ## Tidy lines -/

theorem trimEnd_trimEnd (cs : List Char) : trimEnd (trimEnd cs) = trimEnd cs := by
  rw [trimEnd, trimEnd, List.reverse_reverse, List.dropWhile_idempotent]

/-- A tidy line stays as it is. -/
theorem tidyLine_tidyLine (row : List Char) : tidyLine (tidyLine row) = tidyLine row := by
  have haligned : Aligned false (tidyLine row) :=
    (@aligned_spaceBraces _ (bracketed_tightenBracketsFrom false _) false
      fun _ _ => nofun).trimEnd
  calc tidyLine (tidyLine row)
      = trimEnd (spaceBraces (tightenBrackets (tidyLine row))) := by
        rw [tidyLine, (tight_tidyLine row).tightenClosers_eq]
    _ = trimEnd (tidyLine row) := by rw [tightenBrackets, haligned.spaceBraces_eq]
    _ = tidyLine row := trimEnd_trimEnd _

theorem not_isBlank_of_getLast?_trimEnd {c : Char} {cs : List Char}
    (h : c ∈ (trimEnd cs).getLast?) : isBlank c = false := by
  have hhead := List.head?_dropWhile_not isBlank cs.reverse
  rw [trimEnd, List.getLast?_reverse, Option.mem_def] at h
  rwa [h] at hhead

/-! ## Tidy text -/

/-- What a tidy text looks like. -/
structure IsNormal (cs : List Char) : Prop where
  /-- Every line ends in ink, so none is blank.  A text without characters has no lines. -/
  inked : cs ≠ [] → ∀ row ∈ lines cs, ∃ c ∈ row.getLast?, isBlank c = false
  first : cs.head? ≠ some '\n'
  last : cs.getLast? ≠ some '\n'
  closers : ∀ g c, isGap g = true → isCloser c = true → ¬ [g, c] <:+: cs

/-- The lines of a tidy text. -/
def tidyRows (cs : List Char) : List (List Char) :=
  ((lines cs).map tidyLine).filter (!·.isEmpty)

/-- A line as tidying leaves it. -/
structure TidyRow (row : List Char) : Prop where
  free : '\n' ∉ row
  inked : ∃ c ∈ row.getLast?, isBlank c = false
  tight : Tight row
  fixed : tidyLine row = row

theorem tidyRow_of_mem {cs row : List Char} (h : row ∈ tidyRows cs) : TidyRow row := by
  obtain ⟨hmem, hne⟩ := List.mem_filter.1 h
  obtain ⟨row', hrow', rfl⟩ := List.mem_map.1 hmem
  have hsteps := linewise_spaceBraces.comp (linewise_tightenBrackets.comp linewise_tightenClosers)
  refine ⟨fun hfeed => ?_, ?_, tight_tidyLine row', tidyLine_tidyLine row'⟩
  · obtain ⟨blanks, hblanks, -⟩ := exists_trimEnd_append
      (spaceBraces (tightenBrackets (tightenClosers row')))
    refine hsteps.free row' (feed_not_mem_of_mem_lines hrow') ?_
    rw [Function.comp_apply, Function.comp_apply, hblanks]
    exact List.mem_append_left _ hfeed
  · have hne' : tidyLine row' ≠ [] := by simpa using hne
    have hlast := List.getLast?_eq_some_getLast hne'
    exact ⟨_, hlast, not_isBlank_of_getLast?_trimEnd hlast⟩

theorem TidyRow.ne_nil {row : List Char} (h : TidyRow row) : row ≠ [] := by
  rintro rfl
  obtain ⟨c, hc, -⟩ := h.inked
  exact absurd hc (by simp)

/-- A line feed is neither a gap nor a closer, so tight lines make tight text. -/
theorem tight_joinLines {rows : List (List Char)} (h : ∀ row ∈ rows, Tight row) :
    Tight (joinLines rows) := by
  fun_induction joinLines rows with
  | case1 => exact List.isChain_nil
  | case2 row => exact h row (List.mem_singleton_self row)
  | case3 row rows _ ih =>
    rw [List.forall_mem_cons] at h
    refine List.isChain_append.2 ⟨h.1, List.isChain_cons.2 ⟨fun _ _ hgap => ?_, ih h.2⟩, ?_⟩
    · exact absurd hgap (by decide)
    · rintro _ - d hd -
      obtain rfl := Option.some.inj hd
      decide

theorem head?_joinLines {rows : List (List Char)} (h : ∀ row ∈ rows, row ≠ []) :
    ∀ c ∈ (joinLines rows).head?, ∃ row ∈ rows, c ∈ row := by
  cases rows with
  | nil => exact nofun
  | cons row rows =>
    intro c hc
    rw [List.forall_mem_cons] at h
    rw [joinLines_cons, List.head?_append_of_ne_nil _ h.1] at hc
    exact ⟨row, List.mem_cons_self, List.mem_of_head? hc⟩

theorem getLast?_joinLines {rows : List (List Char)} (h : ∀ row ∈ rows, row ≠ []) :
    ∀ c ∈ (joinLines rows).getLast?, ∃ row ∈ rows, c ∈ row := by
  fun_induction joinLines rows with
  | case1 => simp
  | case2 row => exact fun c hc => ⟨row, List.mem_singleton_self row, List.mem_of_getLast? hc⟩
  | case3 row rows hrows ih =>
    rw [List.forall_mem_cons] at h
    intro c hc
    have hne : joinLines rows ≠ [] := by
      obtain ⟨next, rest, rfl⟩ := List.exists_cons_of_ne_nil hrows
      rw [joinLines_cons]
      exact List.append_ne_nil_of_left_ne_nil (h.2 next List.mem_cons_self) _
    rw [List.append_cons, List.getLast?_append_of_ne_nil _ hne] at hc
    obtain ⟨row', hrow', hmem⟩ := ih h.2 c hc
    exact ⟨row', List.mem_cons_of_mem row hrow', hmem⟩

theorem isNormal_joinLines {rows : List (List Char)} (h : ∀ row ∈ rows, TidyRow row) :
    IsNormal (joinLines rows) where
  inked hne row hrow := by
    have hrows : rows ≠ [] := by
      rintro rfl
      exact hne rfl
    rw [lines_joinLines hrows fun row hrow => (h row hrow).free] at hrow
    exact (h row hrow).inked
  first hfeed := by
    obtain ⟨row, hrow, hmem⟩ := head?_joinLines (fun row hrow => (h row hrow).ne_nil) '\n' hfeed
    exact (h row hrow).free hmem
  last hfeed := by
    obtain ⟨row, hrow, hmem⟩ :=
      getLast?_joinLines (fun row hrow => (h row hrow).ne_nil) '\n' hfeed
    exact (h row hrow).free hmem
  closers g c hgap hcloser := by
    rintro ⟨front, behind, heq⟩
    have htight : Tight (front ++ [g, c] ++ behind) :=
      heq ▸ tight_joinLines fun row hrow => (h row hrow).tight
    rw [(List.isChain_cons_cons.1 htight.left_of_append.right_of_append).1 hgap] at hcloser
    exact Bool.noConfusion hcloser

/-- Tidy lines are the lines of their text, and none of them changes or goes. -/
theorem tidy_joinLines {rows : List (List Char)} (h : ∀ row ∈ rows, TidyRow row) :
    tidy (joinLines rows) = joinLines rows := by
  by_cases hrows : rows = []
  · subst hrows
    cbv
  have hmap : rows.map tidyLine = rows :=
    (List.map_congr_left fun row hrow => (h row hrow).fixed).trans (List.map_id' rows)
  have hfilter : rows.filter (!·.isEmpty) = rows := by
    refine List.filter_eq_self.2 fun row hrow => ?_
    simpa using (h row hrow).ne_nil
  rw [tidy_eq, lines_joinLines hrows fun row hrow => (h row hrow).free, hmap, hfilter]

/-- A tidy text stays as it is.  It has no blank line, no line feed at its ends, no blank at the
end of a line, and no gap before a closer. -/
theorem tidyText_normal (text : String) :
    tidyText (tidyText text) = tidyText text ∧ IsNormal (tidyText text).toList := by
  have hrows : ∀ row ∈ tidyRows text.toList, TidyRow row := fun _ => tidyRow_of_mem
  have htidy : (tidyText text).toList = joinLines (tidyRows text.toList) := by
    rw [tidyText, String.toList_ofList, tidy_eq, tidyRows]
  constructor
  · rw [tidyText, htidy, tidy_joinLines hrows, ← htidy, String.ofList_toList]
  · rw [htidy]
    exact isNormal_joinLines hrows

end NeuralArch.Layout
