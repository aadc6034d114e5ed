import NeuralArch.Proofs.Layout.Tidy
import NeuralArch.Proofs.Lexing.Comments
import NeuralArch.Proofs.Meaning.Moving

/-!
# Tidy text has the same tokens

The steps of tidying do not know of comments: they change what stands in a
comment as they change everything else. No comment gets longer or shorter by a
line for that, since no step but the last touches a line feed, and the last
only takes out lines without any character. So comments may be taken out first:
each step does to the code of a text what it does to the text.

* `code_tightenClosers`, `code_tightenBrackets`, `code_spaceBraces` — the steps
  inside a line.
* `scan_code_tidyLines`, `mem_code_tidyLines` — the step that goes by lines.
* `scan_code_tidy`, `separated_code_tidy` — the words and the separators of the
  code stay.
* `exists_ofText_tidyText` — so do the tokens.
* `meaning_tidyText` — and so does what the text means.
-/

namespace NeuralArch.Layout

open Text Lexing Token

/-! ## Gaps at brackets and closers -/

theorem isCloser_head?_code (cs : List Char) :
    (code false cs).head?.any isCloser = cs.head?.any isCloser := by
  match cs with
  | [] => rfl
  | c :: cs =>
    by_cases hhash : c = '#'
    · subst hhash
      rw [code_false_hash, List.head?_cons, Option.any_some]
      cases hhead : (code true cs).head? with
      | none => rfl
      | some d => rw [head?_code_true cs d hhead]; rfl
    · rw [code_false_cons hhash, List.head?_cons, List.head?_cons]

theorem ne_hash_of_isGap {c : Char} (h : isGap c = true) : c ≠ '#' := by
  rintro rfl
  exact absurd h (by decide)

theorem ne_feed_of_isGap {c : Char} (h : isGap c = true) : c ≠ '\n' := by
  rintro rfl
  exact absurd h (by decide)

theorem code_tightenClosers (inComment : Bool) (cs : List Char) :
    code inComment (tightenClosers cs) = tightenClosers (code inComment cs) := by
  induction cs generalizing inComment with
  | nil => rfl
  | cons c cs ih =>
    cases inComment with
    | true =>
      by_cases hfeed : c = '\n'
      · subst hfeed
        have hkept : ∀ ds, tightenClosers ('\n' :: ds) = '\n' :: tightenClosers ds := fun _ => rfl
        rw [hkept, code_feed, code_feed, hkept, ih]
      · rw [code_true_cons hfeed, tightenClosers, ← ih true]
        split
        · rfl
        · rw [code_true_cons hfeed]
    | false =>
      by_cases hhash : c = '#'
      · subst hhash
        have hkept : ∀ ds, tightenClosers ('#' :: ds) = '#' :: tightenClosers ds := fun _ => rfl
        rw [hkept, code_false_hash, code_false_hash, ih]
      · rw [code_false_cons hhash, tightenClosers, tightenClosers, ← ih false,
          isCloser_head?_code]
        split
        · rfl
        · rw [code_false_cons hhash]

/-- In a comment it does not matter whether a bracket stands before: the line feed behind the
comment is no gap. -/
theorem code_tightenBracketsFrom (afterBracket : Bool) (cs : List Char) :
    code false (tightenBracketsFrom afterBracket cs) =
        tightenBracketsFrom afterBracket (code false cs) ∧
      ∀ b, code true (tightenBracketsFrom afterBracket cs) =
        tightenBracketsFrom b (code true cs) := by
  induction cs generalizing afterBracket with
  | nil => exact ⟨rfl, fun _ => rfl⟩
  | cons c cs ih =>
    constructor
    · by_cases hhash : c = '#'
      · subst hhash
        have hkept : tightenBracketsFrom afterBracket ('#' :: cs) =
            '#' :: tightenBracketsFrom false cs := by
          cases afterBracket <;> rfl
        rw [hkept, code_false_hash, code_false_hash, (ih false).2 afterBracket]
      · rw [code_false_cons hhash, tightenBracketsFrom, tightenBracketsFrom]
        split
        · exact (ih true).1
        · rw [code_false_cons hhash, (ih _).1]
    · intro b
      by_cases hfeed : c = '\n'
      · subst hfeed
        have hkept : ∀ b ds, tightenBracketsFrom b ('\n' :: ds) =
            '\n' :: tightenBracketsFrom false ds := by
          intro b ds
          cases b <;> rfl
        rw [hkept, code_feed, code_feed, hkept, (ih false).1]
      · rw [code_true_cons hfeed, tightenBracketsFrom]
        split
        · exact (ih true).2 b
        · rw [code_true_cons hfeed, (ih _).2 b]

theorem code_tightenBrackets (cs : List Char) :
    code false (tightenBrackets cs) = tightenBrackets (code false cs) :=
  (code_tightenBracketsFrom false cs).1

/-! ## Opening braces -/

theorem dropWhile_isGap_code (cs : List Char) :
    (code false cs).dropWhile isGap = code false (cs.dropWhile isGap) := by
  induction cs with
  | nil => rfl
  | cons c cs ih =>
    by_cases hgap : isGap c = true
    · rw [code_false_cons (ne_hash_of_isGap hgap), List.dropWhile_cons_of_pos hgap,
        List.dropWhile_cons_of_pos hgap, ih]
    · rw [List.dropWhile_cons_of_neg hgap]
      by_cases hhash : c = '#'
      · subst hhash
        rw [code_false_hash]
        cases hcode : code true cs with
        | nil => rfl
        | cons d ds =>
          obtain rfl := head?_code_true cs d (by rw [hcode]; rfl)
          exact List.dropWhile_cons_of_neg (by decide)
      · rw [code_false_cons hhash, List.dropWhile_cons_of_neg hgap]

theorem afterBrace?_code (cs : List Char) :
    afterBrace? (code false cs) = (afterBrace? cs).map (code false) := by
  ext rest
  rw [afterBrace?_eq_some_iff, dropWhile_isGap_code, Option.map_eq_some_iff]
  simp only [afterBrace?_eq_some_iff]
  constructor
  · intro h
    exact exists_eq_append_of_code (w := ['\x7b']) h (by simp)
  · rintro ⟨tail, htail, rfl⟩
    rw [htail, code_false_cons (by decide)]

/-- Up to the brace and the gap before it, nothing ends a comment. -/
theorem code_true_of_afterBrace? {cs rest : List Char} (h : afterBrace? cs = some rest) :
    code true cs = code true rest := by
  obtain ⟨gap, rfl, hgap⟩ := exists_gap_of_afterBrace? h
  clear h
  induction gap with
  | nil => rw [List.nil_append, code_true_cons (by decide)]
  | cons c gap ih =>
    rw [List.forall_mem_cons] at hgap
    rw [List.cons_append, code_true_cons (ne_feed_of_isGap hgap.1), ih hgap.2]

theorem spaceBraces_cons_of_isBlank {c : Char} (h : isBlank c = true) (cs : List Char) :
    spaceBraces (c :: cs) = c :: spaceBraces cs := by
  rw [spaceBraces.eq_def]
  dsimp only
  rw [if_pos h]

theorem spaceBraces_cons_of_brace {c : Char} (h : isBlank c = false) {cs rest : List Char}
    (hrest : afterBrace? cs = some rest) :
    spaceBraces (c :: cs) = c :: ' ' :: '\x7b' :: spaceBraces rest := by
  rw [spaceBraces.eq_def]
  dsimp only
  rw [if_neg (by rw [h]; exact Bool.false_ne_true)]
  split
  · next rest' h' =>
    obtain rfl := Option.some.inj (hrest.symm.trans h')
    rfl
  · next h' => simp [hrest] at h'

theorem spaceBraces_cons_of_none {c : Char} {cs : List Char} (hrest : afterBrace? cs = none) :
    spaceBraces (c :: cs) = c :: spaceBraces cs := by
  rw [spaceBraces.eq_def]
  dsimp only
  split
  · rfl
  · split
    · next h' => simp [hrest] at h'
    · rfl

theorem code_spaceBraces (inComment : Bool) (cs : List Char) :
    code inComment (spaceBraces cs) = spaceBraces (code inComment cs) := by
  fun_induction spaceBraces cs generalizing inComment with
  | case1 => rw [code_nil, spaceBraces.eq_def]
  | case2 c cs hblank ih =>
    by_cases hfeed : c = '\n'
    · subst hfeed
      rw [code_feed, code_feed, spaceBraces_cons_of_isBlank hblank, ih]
    · obtain hc | hc := code_cons_cases hfeed inComment
      · rw [hc, hc, ih]
      · rw [hc, hc, spaceBraces_cons_of_isBlank hblank, ih]
  | case3 c cs hblank rest h _ ih =>
    have hfeed : c ≠ '\n' := by
      rintro rfl
      exact hblank (by decide)
    obtain hc | hc := code_cons_cases hfeed inComment
    · rw [hc, hc, code_true_cons (by decide), code_true_cons (by decide), ih,
        code_true_of_afterBrace? h]
    · have hcode : afterBrace? (code false cs) = some (code false rest) := by
        rw [afterBrace?_code, h, Option.map_some]
      rw [hc, hc, code_false_cons (by decide), code_false_cons (by decide),
        spaceBraces_cons_of_brace (by simpa using hblank) hcode, ih]
  | case4 c cs hblank h ih =>
    have hfeed : c ≠ '\n' := by
      rintro rfl
      exact hblank (by decide)
    obtain hc | hc := code_cons_cases hfeed inComment
    · rw [hc, hc, ih]
    · have hcode : afterBrace? (code false cs) = none := by
        rw [afterBrace?_code, h, Option.map_none]
      rw [hc, hc, spaceBraces_cons_of_none hcode, ih]

/-! ## Lines -/

/-- The code of a line loses only blanks when the line is trimmed. -/
theorem exists_code_trimEnd (l : List Char) :
    ∃ blanks, code false l = code false (trimEnd l) ++ blanks ∧
      ∀ c ∈ blanks, isBlank c = true := by
  obtain ⟨blanks, hl, hblanks⟩ := exists_trimEnd_append l
  obtain ⟨b, hcode⟩ := exists_code_append false (trimEnd l) blanks
  rw [← hl] at hcode
  exact ⟨_, hcode, fun c hc => hblanks c (mem_of_mem_code hc)⟩

theorem scan_code_tidyLines (cs : List Char) :
    scan (code false (tidyLines cs)) = scan (code false cs) := by
  have hgathers : Gathers fun cs => scan (code false cs) := by
    refine ⟨rfl, fun cs ds => ?_⟩
    rw [code_append_feed, scan_append_cons_of_isBlank (by decide)]
  refine hgathers.tidyLines (fun l => ?_) cs
  obtain ⟨blanks, hcode, hblanks⟩ := exists_code_trimEnd l
  rw [hcode, scan_append_blanks hblanks]

/-- The characters of the code, line feeds apart, are gathered line by line. -/
theorem mem_code_tidyLines {c : Char} {cs : List Char} (h : c ∈ code false (tidyLines cs)) :
    c ∈ code false cs ∨ c = '\n' := by
  have hgathers : Gathers fun cs => (code false cs).filter (· != '\n') := by
    refine ⟨rfl, fun cs ds => ?_⟩
    rw [code_append_feed, List.filter_append, List.filter_cons_of_neg (by simp)]
  by_cases hfeed : c = '\n'
  · exact .inr hfeed
  · left
    have hmem : c ∈ (code false (tidyLines cs)).filter (· != '\n') := by
      simpa [List.mem_filter] using ⟨h, hfeed⟩
    rw [tidyLines, hgathers.joinLines] at hmem
    obtain ⟨_, htrimmed, hc⟩ := List.mem_flatMap.1 hmem
    obtain ⟨l, hl, rfl⟩ := List.mem_map.1 (List.mem_filter.1 htrimmed).1
    obtain ⟨blanks, hcode, -⟩ := exists_code_trimEnd l
    have hline : c ∈ (code false l).filter (· != '\n') := by
      rw [hcode, List.filter_append]
      exact List.mem_append_left _ hc
    have hall : c ∈ (lines cs).flatMap fun l => (code false l).filter (· != '\n') :=
      List.mem_flatMap.2 ⟨l, hl, hline⟩
    rw [hgathers.lines] at hall
    exact (List.mem_filter.1 hall).1

/-! ## All steps -/

theorem code_steps (cs : List Char) :
    code false (spaceBraces (tightenBrackets (tightenClosers cs))) =
      spaceBraces (tightenBrackets (tightenClosers (code false cs))) := by
  rw [code_spaceBraces, code_tightenBrackets, code_tightenClosers]

/-- Tidying keeps the words outside comments. -/
theorem scan_code_tidy (cs : List Char) : scan (code false (tidy cs)) = scan (code false cs) := by
  rw [tidy, scan_code_tidyLines, code_steps, (scan_spaceBraces _).1, scan_tightenBrackets,
    (scan_tightenClosers _).1]

/-- Outside comments no blanks appear but separators. -/
theorem separated_code_tidy {cs : List Char} (h : Separated (code false cs)) :
    Separated (code false (tidy cs)) := by
  intro c hc hblank
  rcases mem_code_tidyLines hc with hc | rfl
  · rw [code_steps] at hc
    rcases mem_spaceBraces hc with hc | rfl | rfl
    · exact h c (mem_tightenClosers (mem_tightenBracketsFrom hc)) hblank
    · decide
    · exact absurd hblank (by decide)
  · decide

/-- A text that has tokens has the same tokens when it is tidy, if at other places. -/
theorem exists_ofText_tidyText {text : String} {ts : List Token}
    (h : Token.ofText text = .ok ts) :
    ∃ us, Token.ofText (tidyText text) = .ok us ∧ us.map unplaced = ts.map unplaced := by
  obtain ⟨hseparated, hcuts⟩ :=
    (exists_ofTextAt_iff Position.start text.toList (ts.map unplaced)).1 ⟨ts, h, rfl⟩
  rw [← scan_code_tidy] at hcuts
  have htidy := (exists_ofTextAt_iff Position.start _ _).2 ⟨separated_code_tidy hseparated, hcuts⟩
  rwa [Token.ofText, tidyText, String.toList_ofList]

/-! ## Meaning -/

/-- A text that has tokens has the same tokens when it is tidy, if at other places. So the one is
a description if the other is, and they have the same architecture, if any. -/
theorem meaning_tidyText (text : String) (ts : List Token) (h : Token.ofText text = .ok ts) :
    (∃ us, Token.ofText (tidyText text) = .ok us ∧ us.map unplaced = ts.map unplaced) ∧
    ((∃ tree, Tree.ofText text = .ok tree) ↔ ∃ tree, Tree.ofText (tidyText text) = .ok tree) ∧
    ∀ (r : RuleTable) (a : Architecture),
      r.compileText text = .ok a ↔ r.compileText (tidyText text) = .ok a := by
  obtain ⟨us, hus, hsame⟩ := exists_ofText_tidyText h
  refine ⟨⟨us, hus, hsame⟩, ⟨?_, ?_⟩, fun r a => ⟨?_, ?_⟩⟩
  · rintro ⟨tree, htree⟩
    obtain ⟨tree', htree', -⟩ := Meaning.exists_tree_of_unplaced h hus hsame htree
    exact ⟨tree', htree'⟩
  · rintro ⟨tree, htree⟩
    obtain ⟨tree', htree', -⟩ := Meaning.exists_tree_of_unplaced hus h hsame.symm htree
    exact ⟨tree', htree'⟩
  · exact Meaning.compileText_of_unplaced h hus hsame
  · exact Meaning.compileText_of_unplaced hus h hsame.symm

/-- A description with punctuation in its comments and more blanks than lines. -/
def untidyNetwork : String :=
  "# für 猫 \x7b [ 1 , 2 ] ;\u2003\r\nneuralnet\x7b\r\n\x0c\r\n"
    ++ "input \x7b features = 3 ; \x7d\x0c\r\n"
    ++ "tcn\t\x7b dilations = [ 1 , 2 ] ;\x7d # \x7d ,\u00a0\r\noutput\x7b \x7d \x7d#"

theorem meaning_untidyNetwork : ∃ ts, Token.ofText untidyNetwork = .ok ts ∧ ts.length = 24 ∧
    (∃ us, Token.ofText (tidyText untidyNetwork) = .ok us ∧
      us.map unplaced = ts.map unplaced) ∧
    ((∃ tree, Tree.ofText untidyNetwork = .ok tree) ↔
      ∃ tree, Tree.ofText (tidyText untidyNetwork) = .ok tree) ∧
    ∀ (r : RuleTable) (a : Architecture),
      r.compileText untidyNetwork = .ok a ↔ r.compileText (tidyText untidyNetwork) = .ok a := by
  have hok : (Token.ofText untidyNetwork).toOption.any (·.length == 24) = true := by
    decide +kernel
  cases h : Token.ofText untidyNetwork with
  | error e => simp [h, Except.toOption] at hok
  | ok ts =>
    have hlength : ts.length = 24 := by simpa [h, Except.toOption] using hok
    exact ⟨ts, rfl, hlength, meaning_tidyText untidyNetwork ts h⟩

end NeuralArch.Layout
