import NeuralArch.Proofs.Layout.Normal
import NeuralArch.Proofs.Layout.Settled
import NeuralArch.Proofs.Text.Separators

/-!
# Rows of blocks and statements

Words that open a block, close one or make a statement are set in a row of their
own, indented by the blocks that are open there.  On the page the words of a row
stand apart by one space each; tidying takes the spaces out that stand before a
closer or behind a bracket, so lists get the form `[a, b, c]`.

* `Rows` — rows that lead from one level of indentation to another.
* `Sets` — words that are set as such rows, wherever a line begins.
* `sets_header`, `sets_closing`, `sets_word`, `sets_list` — the kinds of rows.
* `Sets.rows` — the lines of a tidy page of such words.
-/

namespace NeuralArch.Layout

open Text Lexing

/-! ## Rows -/

/-- The value of a statement: a word, or a list of words. -/
inductive ValueText : List Char → Prop
  | word {w : List Char} (hw : Inner w) : ValueText w
  | list {first : List Char} {rest : List (List Char)} (hfirst : Inner first)
      (hrest : ∀ item ∈ rest, Inner item) :
      ValueText ('[' :: (first ++ rest.flatMap (", ".toList ++ ·) ++ [']']))

/-- The spaces before a row at some level of indentation. -/
def indent (width level : Nat) : List Char := List.replicate (width * level) ' '

/-- Rows that lead from a level of indentation to another: the header of a block, the brace that
closes one, which stands at the level outside it, and statements. -/
inductive Rows (width : Nat) : Nat → Nat → List (List Char) → Prop
  | nil {level : Nat} : Rows width level level []
  | header {level last : Nat} {head : List Char} {rows : List (List Char)} (hhead : Inner head)
      (hrows : Rows width (level + 1) last rows) :
      Rows width level last ((indent width level ++ (head ++ " \x7b".toList)) :: rows)
  | closing {level last : Nat} {rows : List (List Char)} (hrows : Rows width level last rows) :
      Rows width (level + 1) last ((indent width level ++ "\x7d".toList) :: rows)
  | statement {level last : Nat} {name value : List Char} {rows : List (List Char)}
      (hname : Inner name) (hvalue : ValueText value) (hrows : Rows width level last rows) :
      Rows width level last
        ((indent width level ++ (name ++ " = ".toList ++ value ++ ";".toList)) :: rows)

theorem Rows.append {width level mid last : Nat} {rows rows' : List (List Char)}
    (h : Rows width level mid rows) (h' : Rows width mid last rows') :
    Rows width level last (rows ++ rows') := by
  induction h with
  | nil => exact h'
  | header hhead _ ih => exact .header hhead (ih h')
  | closing _ ih => exact .closing (ih h')
  | statement hname hvalue _ ih => exact .statement hname hvalue (ih h')

theorem Rows.ne_nil {width level last : Nat} {rows : List (List Char)}
    (h : Rows width level last rows) : ∀ row ∈ rows, row ≠ [] := by
  induction h with
  | nil => simp
  | header _ _ ih => exact List.forall_mem_cons.2 ⟨by simp, ih⟩
  | closing _ ih => exact List.forall_mem_cons.2 ⟨by simp, ih⟩
  | statement _ _ _ ih => exact List.forall_mem_cons.2 ⟨by simp, ih⟩

/-! ## Words on a page -/

namespace Page

/-- A page on which the next word begins a line. -/
def lineStart (width level : Nat) (cs : List Char) : Page := ⟨cs.reverse, level, width, true⟩

/-- A page on which the next word stands behind another. -/
def midLine (width level : Nat) (cs : List Char) : Page := ⟨cs.reverse, level, width, false⟩

variable {width level : Nat} {cs w : List Char}

theorem isEmpty_of_ne_nil {word : String} (h : word.toList ≠ []) : word.isEmpty = false := by
  rw [Bool.eq_false_iff, Ne, String.isEmpty_iff]
  rintro rfl
  exact h rfl

/-- The first word of a line is indented. -/
theorem write_lineStart {word : String} (hne : word.toList ≠ []) :
    (lineStart width level cs).write word =
      midLine width level (cs ++ (indent width level ++ word.toList)) := by
  rw [write, isEmpty_of_ne_nil hne]
  simp [lineStart, midLine, pad, put, indent, Nat.mul_comm]

theorem pad_midLine (hlast : Inked cs.reverse) :
    (midLine width level cs).pad = midLine width level (cs ++ [' ']) := by
  have hhead : cs.reverse.head? ≠ some ' ' := by
    intro h
    rw [Inked, h] at hlast
    exact absurd hlast (by decide)
  rw [pad, midLine, if_neg Bool.false_ne_true, if_neg hhead, midLine, List.reverse_concat]

/-- The others stand behind one space. -/
theorem write_midLine {word : String} (hne : word.toList ≠ []) (hlast : Inked cs.reverse) :
    (midLine width level cs).write word = midLine width level (cs ++ ' ' :: word.toList) := by
  rw [write, isEmpty_of_ne_nil hne, if_neg Bool.false_ne_true, pad_midLine hlast]
  simp [put, midLine]

/-- A line that ends in ink is ended as it is. -/
theorem newLine_concat {c : Char} (hc : isBlank c = false) (atLineStart : Bool) :
    newLine ⟨(cs ++ [c]).reverse, level, width, atLineStart⟩ =
      lineStart width level (cs ++ [c] ++ ['\n']) := by
  have hinked : Inked (cs ++ [c]).reverse := by
    rw [Inked, List.reverse_concat, List.head?_cons, Option.all_some, hc]
    rfl
  rw [newLine, hinked.dropWhile_eq fun _ => isBlank_of_eq_space, lineStart,
    List.reverse_concat (l := cs ++ [c])]

theorem openBrace_midLine (hlast : Inked cs.reverse) :
    (midLine width level cs).openBrace =
      lineStart width (level + 1) (cs ++ " \x7b".toList ++ ['\n']) := by
  have hbrace : cs ++ " \x7b".toList = cs ++ [' '] ++ ['\x7b'] := by simp
  rw [openBrace, pad_midLine hlast, hbrace, ← newLine_concat (by decide) false, List.reverse_concat]
  rfl

/-- A closing brace stands at the level outside its block. -/
theorem closeBrace_lineStart :
    (lineStart width (level + 1) cs).closeBrace =
      lineStart width level (cs ++ (indent width level ++ "\x7d".toList) ++ ['\n']) := by
  have hbrace : cs ++ (indent width level ++ "\x7d".toList) =
      cs ++ indent width level ++ ['\x7d'] := by simp
  rw [hbrace, ← newLine_concat (by decide) false, List.reverse_concat, closeBrace, lineStart]
  simp [pad, put, indent, Nat.mul_comm]

theorem endStatement_midLine (hlast : Inked cs.reverse) :
    (midLine width level cs).endStatement =
      lineStart width level (cs ++ ";".toList ++ ['\n']) := by
  have hsemicolon : cs ++ ";".toList = cs ++ [';'] := by simp
  rw [endStatement, midLine, hlast.dropWhile_eq fun _ hc => hc, hsemicolon,
    ← newLine_concat (by decide) false, List.reverse_concat]

end Page

/-! ## Tidy rows -/

theorem not_isGap_of_inner {w : List Char} (h : Inner w) : ∀ c ∈ w, isGap c = false :=
  fun c hc => not_isGap_of_not_isBlank (h.not_isBlank c hc)

/-- A text that begins with something else than a closer. -/
def Begins (cs : List Char) : Prop := ∀ c ∈ cs.head?, isCloser c = false

theorem begins_cons {c : Char} (h : isCloser c = false) (cs : List Char) : Begins (c :: cs) := by
  rintro _ ⟨⟩
  exact h

theorem begins_of_inner {w : List Char} (h : Inner w) (cs : List Char) : Begins (w ++ cs) := by
  obtain ⟨c, w, rfl⟩ := List.exists_cons_of_ne_nil h.1
  refine begins_cons ?_ (w ++ cs)
  cases hcloser : isCloser c with
  | false => rfl
  | true =>
    have hinner := h.2 c List.mem_cons_self
    rw [isInner, isMark_of_isCloser hcloser, Bool.not_true, Bool.and_false] at hinner
    exact Bool.noConfusion hinner

theorem tightenClosers_append {w : List Char} (h : ∀ c ∈ w, isGap c = false) (cs : List Char) :
    tightenClosers (w ++ cs) = w ++ tightenClosers cs := by
  induction w with
  | nil => rfl
  | cons c w ih =>
    rw [List.forall_mem_cons] at h
    rw [List.cons_append, tightenClosers, ih h.2, h.1]
    rfl

/-- Spaces stay before what is no closer. -/
theorem tightenClosers_spaces {cs tight : List Char} (h : tightenClosers cs = tight)
    (hbegins : Begins tight) (n : Nat) :
    tightenClosers (List.replicate n ' ' ++ cs) = List.replicate n ' ' ++ tight := by
  induction n with
  | zero => exact h
  | succ n ih =>
    have hspaces : Begins (List.replicate n ' ' ++ tight) := by
      cases n with
      | zero => exact hbegins
      | succ n => exact begins_cons (by decide) _
    have hany : (List.replicate n ' ' ++ tight).head?.any isCloser = false := by
      cases hhead : (List.replicate n ' ' ++ tight).head? with
      | none => rfl
      | some c => exact hspaces c hhead
    rw [List.replicate_succ, List.cons_append, tightenClosers, ih, hany]
    rfl

theorem tightenClosers_space {cs tight : List Char} (h : tightenClosers cs = tight)
    (hbegins : Begins tight) : tightenClosers (' ' :: cs) = ' ' :: tight :=
  tightenClosers_spaces h hbegins 1

/-- A space goes before a closer. -/
theorem tightenClosers_closer {c : Char} (h : isCloser c = true) (hgap : isGap c = false)
    (cs : List Char) : tightenClosers (' ' :: c :: cs) = c :: tightenClosers cs := by
  have hkept : tightenClosers (c :: cs) = c :: tightenClosers cs := by
    rw [tightenClosers, hgap]
    rfl
  rw [tightenClosers, hkept, List.head?_cons, Option.any_some, h]
  rfl

theorem tightenBracketsFrom_append {w : List Char} (h : '[' ∉ w) (cs : List Char) :
    tightenBracketsFrom false (w ++ cs) = w ++ tightenBracketsFrom false cs := by
  induction w with
  | nil => rfl
  | cons c w ih =>
    rw [List.mem_cons, not_or] at h
    have hc : (c == '[') = false := beq_eq_false_iff_ne.2 (Ne.symm h.1)
    rw [List.cons_append, tightenBracketsFrom, Bool.false_and, if_neg Bool.false_ne_true, hc,
      ih h.2, List.cons_append]

/-- A bracket that no gap stands behind. -/
theorem tightenBracketsFrom_true {w : List Char} (h : Inner w) (cs : List Char) :
    tightenBracketsFrom true (w ++ cs) = tightenBracketsFrom false (w ++ cs) := by
  obtain ⟨c, w, rfl⟩ := List.exists_cons_of_ne_nil h.1
  rw [List.cons_append, tightenBracketsFrom, tightenBracketsFrom,
    not_isGap_of_inner h c List.mem_cons_self, Bool.and_false, Bool.and_false]

theorem spaceBraces_eq_self {cs : List Char} (h : '\x7b' ∉ cs) : spaceBraces cs = cs := by
  induction cs with
  | nil => rw [spaceBraces.eq_def]
  | cons c cs ih =>
    rw [List.mem_cons, not_or] at h
    have hnone : afterBrace? cs = none := by
      rw [Option.eq_none_iff_forall_ne_some]
      intro rest hrest
      obtain ⟨gap, rfl, -⟩ := exists_gap_of_afterBrace? hrest
      exact h.2 (List.mem_append_right _ List.mem_cons_self)
    rw [spaceBraces_cons_of_none hnone, ih h.2]

theorem spaceBraces_spaces (n : Nat) (cs : List Char) :
    spaceBraces (List.replicate n ' ' ++ cs) = List.replicate n ' ' ++ spaceBraces cs := by
  induction n with
  | zero => rfl
  | succ n ih =>
    rw [List.replicate_succ, List.cons_append, spaceBraces_cons_of_isBlank (by decide), ih,
      List.cons_append]

theorem trimEnd_concat {c : Char} (h : isBlank c = false) (cs : List Char) :
    trimEnd (cs ++ [c]) = cs ++ [c] := by
  rw [trimEnd, List.reverse_concat, List.dropWhile_cons_of_neg (by simp [h]), List.reverse_cons,
    List.reverse_reverse]

/-- A row is tidied behind its indentation. -/
theorem tidyLine_indent {width level : Nat} {row tight : List Char} {c : Char}
    (hclosers : tightenClosers row = tight) (hbegins : Begins tight)
    (hc : isBlank c = false) {cs : List Char}
    (hspaced : spaceBraces (tightenBrackets tight) = cs ++ [c]) :
    tidyLine (indent width level ++ row) = indent width level ++ (cs ++ [c]) := by
  have hbracket : '[' ∉ indent width level := fun h =>
    absurd (List.eq_of_mem_replicate h) (by decide)
  rw [tidyLine, indent, tightenClosers_spaces hclosers hbegins, ← indent,
    tightenBrackets, tightenBracketsFrom_append hbracket, ← tightenBrackets, indent,
    spaceBraces_spaces, hspaced, ← List.append_assoc, trimEnd_concat hc]

/-- The brace of a header has its space already. -/
theorem spaceBraces_of_inner {w : List Char} (h : Inner w) :
    spaceBraces (w ++ [' ', '\x7b']) = w ++ [' ', '\x7b'] := by
  induction w with
  | nil => exact absurd rfl h.1
  | cons c w ih =>
    have hc : isBlank c = false := h.not_isBlank c List.mem_cons_self
    cases w with
    | nil =>
      have hrest : afterBrace? [' ', '\x7b'] = some [] := rfl
      rw [List.singleton_append, spaceBraces_cons_of_brace hc hrest, spaceBraces.eq_def]
    | cons d w =>
      have htail : Inner (d :: w) := ⟨List.cons_ne_nil _ _, fun e he =>
        h.2 e (List.mem_cons_of_mem _ he)⟩
      have hnone : afterBrace? (d :: w ++ [' ', '\x7b']) = none := by
        rw [afterBrace?_eq_none_iff, List.cons_append,
          List.dropWhile_cons_of_neg (by simp [not_isGap_of_inner htail d List.mem_cons_self])]
        intro hd
        obtain rfl := Option.some.inj hd
        exact htail.not_mem (c := '\x7b') (by decide) List.mem_cons_self
      rw [List.cons_append, spaceBraces_cons_of_none hnone, ih htail, List.cons_append]

theorem tidyLine_header {width level : Nat} {head : List Char} (h : Inner head) :
    tidyLine (indent width level ++ (head ++ " \x7b".toList)) =
      indent width level ++ (head ++ " \x7b".toList) := by
  have hclosers : tightenClosers (head ++ [' ', '\x7b']) = head ++ [' ', '\x7b'] := by
    rw [tightenClosers_append (not_isGap_of_inner h)]
    rfl
  have hbrackets : tightenBrackets (head ++ [' ', '\x7b']) = head ++ [' ', '\x7b'] := by
    rw [tightenBrackets, tightenBracketsFrom_append (h.not_mem (by decide))]
    rfl
  have hspaced : spaceBraces (tightenBrackets (head ++ [' ', '\x7b'])) =
      (head ++ [' ']) ++ ['\x7b'] := by
    rw [hbrackets, spaceBraces_of_inner h, List.append_cons]
  refine (tidyLine_indent hclosers (begins_of_inner h _) (by decide) hspaced).trans ?_
  rw [← List.append_cons]
  rfl

theorem tidyLine_closing {width level : Nat} :
    tidyLine (indent width level ++ "\x7d".toList) = indent width level ++ "\x7d".toList := by
  have hclosers : tightenClosers "\x7d".toList = "\x7d".toList := rfl
  have hspaced : spaceBraces (tightenBrackets "\x7d".toList) = [] ++ ['\x7d'] :=
    spaceBraces_eq_self (by decide)
  exact tidyLine_indent hclosers (begins_cons (by decide) []) (by decide) hspaced

/-- No brace is in a statement, so the last step leaves it as it is. -/
theorem tidyLine_statement {width level : Nat} {row tight kept : List Char}
    (hclosers : tightenClosers row = tight) (hbegins : Begins tight)
    (hbrackets : tightenBrackets tight = kept ++ ";".toList) (hkept : '\x7b' ∉ kept) :
    tidyLine (indent width level ++ row) = indent width level ++ (kept ++ ";".toList) := by
  refine tidyLine_indent hclosers hbegins (c := ';') (by decide) ?_
  rw [hbrackets, spaceBraces_eq_self]
  · rfl
  · rw [List.mem_append, not_or]
    exact ⟨hkept, by decide⟩

/-- What stands behind the name of a statement. -/
theorem tightenClosers_assignment {name cs tight : List Char} (hname : Inner name)
    (h : tightenClosers cs = tight) (hbegins : Begins tight) :
    tightenClosers (name ++ " = ".toList ++ cs) = name ++ " = ".toList ++ tight := by
  have hsign : tightenClosers ('=' :: ' ' :: cs) = '=' :: ' ' :: tight := by
    rw [← List.singleton_append, tightenClosers_append (List.forall_mem_singleton.2 (by decide)),
      tightenClosers_space h hbegins]
    rfl
  have hequal : tightenClosers (" = ".toList ++ cs) = " = ".toList ++ tight :=
    tightenClosers_space hsign (begins_cons (by decide) _)
  rw [List.append_assoc, tightenClosers_append (not_isGap_of_inner hname), hequal,
    List.append_assoc]

theorem tightenBrackets_assignment {name cs : List Char} (hname : Inner name) :
    tightenBrackets (name ++ " = ".toList ++ cs) = name ++ " = ".toList ++ tightenBrackets cs := by
  rw [tightenBrackets, tightenBracketsFrom_append, ← tightenBrackets]
  rw [List.mem_append, not_or]
  exact ⟨hname.not_mem (by decide), by decide⟩

theorem tidyLine_word {width level : Nat} {name w : List Char} (hname : Inner name)
    (hw : Inner w) :
    tidyLine (indent width level ++ (name ++ " = ".toList ++ (w ++ ";".toList))) =
      indent width level ++ (name ++ " = ".toList ++ w ++ ";".toList) := by
  have hvalue : tightenClosers (w ++ ";".toList) = w ++ ";".toList := by
    rw [tightenClosers_append (not_isGap_of_inner hw)]
    rfl
  refine tidyLine_statement
    (tightenClosers_assignment hname hvalue (begins_of_inner hw _)) ?_ ?_ ?_
  · rw [List.append_assoc]
    exact begins_of_inner hname _
  · rw [tightenBrackets_assignment hname, tightenBrackets,
      tightenBracketsFrom_append (hw.not_mem (by decide)), ← List.append_assoc]
    rfl
  · simp only [List.mem_append, not_or]
    exact ⟨⟨hname.not_mem (by decide), by decide⟩, hw.not_mem (by decide)⟩

/-- The items of a list behind the first, without spaces before the commas. -/
theorem tightenClosers_items {rest : List (List Char)} (h : ∀ item ∈ rest, Inner item)
    (cs : List Char) :
    tightenClosers (rest.flatMap (" , ".toList ++ ·) ++ cs) =
      rest.flatMap (", ".toList ++ ·) ++ tightenClosers cs := by
  induction rest with
  | nil => rfl
  | cons item rest ih =>
    rw [List.forall_mem_cons] at h
    have hitem : tightenClosers (item ++ (rest.flatMap (" , ".toList ++ ·) ++ cs)) =
        item ++ (rest.flatMap (", ".toList ++ ·) ++ tightenClosers cs) := by
      rw [tightenClosers_append (not_isGap_of_inner h.1), ih h.2]
    have hcomma := tightenClosers_closer (c := ',') (by decide) (by decide)
      (' ' :: (item ++ (rest.flatMap (" , ".toList ++ ·) ++ cs)))
    rw [tightenClosers_space hitem (begins_of_inner h.1 _)] at hcomma
    rw [List.flatMap_cons, List.flatMap_cons, List.append_assoc, List.append_assoc,
      List.append_assoc, List.append_assoc]
    exact hcomma

theorem not_mem_items {rest : List (List Char)} (h : ∀ item ∈ rest, Inner item) {c : Char}
    (hc : isInner c = false) (hcomma : c ∉ ", ".toList) : c ∉ rest.flatMap (", ".toList ++ ·) := by
  intro hmem
  obtain ⟨item, hitem, hmem⟩ := List.mem_flatMap.1 hmem
  rcases List.mem_append.1 hmem with hmem | hmem
  · exact hcomma hmem
  · exact (h item hitem).not_mem hc hmem

theorem tidyLine_list {width level : Nat} {name first : List Char} {rest : List (List Char)}
    (hname : Inner name) (hfirst : Inner first) (hrest : ∀ item ∈ rest, Inner item) :
    tidyLine (indent width level ++ (name ++ " = ".toList ++ ("[ ".toList ++
        (first ++ (rest.flatMap (" , ".toList ++ ·) ++ " ];".toList))))) =
      indent width level ++ (name ++ " = ".toList ++
        ('[' :: (first ++ rest.flatMap (", ".toList ++ ·) ++ [']'])) ++ ";".toList) := by
  have hitems : tightenClosers (first ++ (rest.flatMap (" , ".toList ++ ·) ++ " ];".toList)) =
      first ++ (rest.flatMap (", ".toList ++ ·) ++ "];".toList) := by
    rw [tightenClosers_append (not_isGap_of_inner hfirst), tightenClosers_items hrest]
    rfl
  have hlist : tightenClosers ("[ ".toList ++
      (first ++ (rest.flatMap (" , ".toList ++ ·) ++ " ];".toList))) =
        '[' :: ' ' :: (first ++ (rest.flatMap (", ".toList ++ ·) ++ "];".toList)) := by
    have hopen := @tightenClosers_append ['['] (List.forall_mem_singleton.2 (by decide))
      (' ' :: (first ++ (rest.flatMap (" , ".toList ++ ·) ++ " ];".toList)))
    rw [tightenClosers_space hitems (begins_of_inner hfirst _)] at hopen
    exact hopen
  have hbrackets : tightenBrackets
      ('[' :: ' ' :: (first ++ (rest.flatMap (", ".toList ++ ·) ++ "];".toList))) =
        '[' :: (first ++ rest.flatMap (", ".toList ++ ·) ++ [']']) ++ ";".toList := by
    have hfree : tightenBracketsFrom true (first ++ (rest.flatMap (", ".toList ++ ·) ++
        "];".toList)) = first ++ (rest.flatMap (", ".toList ++ ·) ++ "];".toList) := by
      rw [tightenBracketsFrom_true hfirst,
        tightenBracketsFrom_append (hfirst.not_mem (by decide)),
        tightenBracketsFrom_append (not_mem_items hrest (by decide) (by decide))]
      rfl
    have hgap : tightenBrackets
        ('[' :: ' ' :: (first ++ (rest.flatMap (", ".toList ++ ·) ++ "];".toList))) =
          '[' :: tightenBracketsFrom true (first ++ (rest.flatMap (", ".toList ++ ·) ++
            "];".toList)) := rfl
    rw [hgap, hfree]
    simp
  refine tidyLine_statement
    (tightenClosers_assignment hname hlist (begins_cons (by decide) _)) ?_ ?_ ?_
  · rw [List.append_assoc]
    exact begins_of_inner hname _
  · rw [tightenBrackets_assignment hname, hbrackets, List.append_assoc _ _ ";".toList]
  · simp only [List.mem_append, List.mem_cons, List.not_mem_nil, not_or]
    exact ⟨⟨hname.not_mem (by decide), by decide⟩, by decide,
      ⟨hfirst.not_mem (by decide), not_mem_items hrest (by decide) (by decide)⟩, by decide, by simp⟩

/-! ## Words that are set as rows -/

/-- A word that a line takes as it is. -/
structure Plain (w : String) : Prop where
  mark : Mark.ofLiteral w = .word w
  ne_nil : w.toList ≠ []
  inked : ∀ c ∈ w.toList, isBlank c = false

theorem plain_of_inner {w : String} (h : Inner w.toList) : Plain w :=
  ⟨Page.ofLiteral_of_inner h, h.1, h.not_isBlank⟩

/-- A single character that is no mark of the page. -/
theorem plain_of_char {w : String} {c : Char} (hw : w.toList = [c])
    (hmark : Mark.ofLiteral w = .word w) (hc : isBlank c = false) : Plain w where
  mark := hmark
  ne_nil := hw ▸ List.cons_ne_nil c []
  inked := hw ▸ List.forall_mem_singleton.2 hc

theorem Plain.inked_append {w : String} (h : Plain w) (cs : List Char) :
    Page.Inked (cs ++ w.toList).reverse := by
  obtain ⟨ds, c, hcs⟩ := List.eq_nil_or_concat' w.toList |>.resolve_left h.ne_nil
  have hc : isBlank c = false := h.inked c (by simp [hcs])
  rw [hcs, ← List.append_assoc, List.reverse_concat, Page.Inked, List.head?_cons, Option.all_some,
    hc]
  rfl

theorem Plain.feed_not_mem {w : String} (h : Plain w) : '\n' ∉ w.toList := fun hmem =>
  absurd (h.inked _ hmem) (by decide)

/-- Words behind another, each with a space before it. -/
def spaced (ws : List String) : List Char := ws.flatMap fun w => ' ' :: w.toList

variable {width level last : Nat} {cs : List Char}

theorem inked_spaced {ws : List String} (h : ∀ w ∈ ws, Plain w)
    (hlast : Page.Inked cs.reverse) : Page.Inked (cs ++ spaced ws).reverse := by
  rcases List.eq_nil_or_concat' ws with rfl | ⟨front, w, rfl⟩
  · rwa [spaced, List.flatMap_nil, List.append_nil]
  · have hw : Plain w := h w (by simp)
    rw [spaced, List.flatMap_append, List.flatMap_singleton, ← List.singleton_append,
      ← List.append_assoc, ← List.append_assoc]
    exact hw.inked_append _

theorem feed_not_mem_spaced {ws : List String} (h : ∀ w ∈ ws, Plain w) : '\n' ∉ spaced ws := by
  intro hmem
  obtain ⟨w, hw, hmem⟩ := List.mem_flatMap.1 hmem
  rcases List.mem_cons.1 hmem with hspace | hmem
  · exact absurd hspace (by decide)
  · exact (h w hw).feed_not_mem hmem

theorem foldl_mark_midLine {ws : List String} (h : ∀ w ∈ ws, Plain w)
    (hlast : Page.Inked cs.reverse) :
    (ws.map Mark.ofLiteral).foldl Page.mark (Page.midLine width level cs) =
      Page.midLine width level (cs ++ spaced ws) := by
  induction ws generalizing cs with
  | nil => rw [spaced, List.flatMap_nil, List.append_nil]; rfl
  | cons w ws ih =>
    rw [List.forall_mem_cons] at h
    have hinked : Page.Inked (cs ++ ' ' :: w.toList).reverse := by
      rw [← List.singleton_append, ← List.append_assoc]
      exact h.1.inked_append _
    rw [List.map_cons, List.foldl_cons, h.1.mark, Page.mark, Page.write_midLine h.1.ne_nil hlast,
      ih h.2 hinked, List.append_assoc]
    rfl

/-- The words of a line, before its end is written. -/
theorem foldl_mark_lineStart {first : String} {rest : List String} (hfirst : Plain first)
    (hrest : ∀ w ∈ rest, Plain w) :
    ((first :: rest).map Mark.ofLiteral).foldl Page.mark (Page.lineStart width level cs) =
      Page.midLine width level
        (cs ++ (indent width level ++ (first.toList ++ spaced rest))) := by
  rw [List.map_cons, List.foldl_cons, hfirst.mark, Page.mark,
    Page.write_lineStart hfirst.ne_nil, foldl_mark_midLine hrest]
  · simp only [List.append_assoc]
  · rw [← List.append_assoc]
    exact hfirst.inked_append _

/-- Words that are set, wherever a line begins, in lines that lead from one level to another when
they are tidied. -/
def Sets (width level last : Nat) (ws : List String) : Prop :=
  ∃ raw : List (List Char),
    (∀ cs, (ws.map Mark.ofLiteral).foldl Page.mark (Page.lineStart width level cs) =
      Page.lineStart width last (cs ++ raw.flatMap (· ++ ['\n']))) ∧
    (∀ row ∈ raw, '\n' ∉ row) ∧ Rows width level last (raw.map tidyLine)

theorem sets_nil : Sets width level level [] := by
  refine ⟨[], fun cs => ?_, by simp, .nil⟩
  rw [List.flatMap_nil, List.append_nil]
  rfl

theorem Sets.append {mid : Nat} {ws ws' : List String} (h : Sets width level mid ws)
    (h' : Sets width mid last ws') : Sets width level last (ws ++ ws') := by
  obtain ⟨raw, hpage, hfree, hrows⟩ := h
  obtain ⟨raw', hpage', hfree', hrows'⟩ := h'
  refine ⟨raw ++ raw', fun cs => ?_, ?_, ?_⟩
  · rw [List.map_append, List.foldl_append, hpage, hpage', List.flatMap_append, List.append_assoc]
  · exact List.forall_mem_append.2 ⟨hfree, hfree'⟩
  · rw [List.map_append]
    exact hrows.append hrows'

/-- Words that are set in a line of their own. -/
theorem sets_row (shown : Nat) (row : List Char) {ws : List String}
    (hpage : ∀ cs, (ws.map Mark.ofLiteral).foldl Page.mark (Page.lineStart width level cs) =
      Page.lineStart width last (cs ++ (indent width shown ++ row) ++ ['\n']))
    (hfree : '\n' ∉ row) (hrows : Rows width level last [tidyLine (indent width shown ++ row)]) :
    Sets width level last ws := by
  refine ⟨[indent width shown ++ row], fun cs => ?_, ?_, hrows⟩
  · rw [hpage, List.flatMap_singleton, List.append_assoc]
  · rw [List.forall_mem_singleton, List.mem_append, not_or]
    exact ⟨fun h => absurd (List.eq_of_mem_replicate h) (by decide), hfree⟩

theorem sets_header {head : String} (hhead : Inner head.toList) :
    Sets width level (level + 1) [head, "\x7b"] := by
  have hfree : '\n' ∉ head.toList ++ " \x7b".toList := by
    rw [List.mem_append, not_or]
    exact ⟨hhead.not_mem (by decide), by decide⟩
  refine sets_row level (head.toList ++ " \x7b".toList) (fun cs => ?_) hfree ?_
  · have hword := @foldl_mark_lineStart width level cs head [] (plain_of_inner hhead) (by simp)
    have hinked : Page.Inked (cs ++ (indent width level ++ head.toList)).reverse := by
      rw [← List.append_assoc]
      exact (plain_of_inner hhead).inked_append _
    rw [spaced, List.flatMap_nil, List.append_nil] at hword
    show (([head].map Mark.ofLiteral ++ [Mark.openBrace]).foldl Page.mark _) = _
    rw [List.foldl_append, hword, List.foldl_cons, List.foldl_nil, Page.mark,
      Page.openBrace_midLine hinked]
    simp only [List.append_assoc]
  · rw [tidyLine_header hhead]
    exact .header hhead .nil

theorem sets_closing : Sets width (level + 1) level ["\x7d"] := by
  refine sets_row level "\x7d".toList (fun cs => Page.closeBrace_lineStart) (by decide) ?_
  rw [tidyLine_closing]
  exact .closing .nil

/-- A statement: its name, and words that are tidied to its value. -/
theorem sets_statement {name : String} {ws : List String} {value : List Char}
    (hname : Inner name.toList) (hws : ∀ w ∈ ws, Plain w) (hvalue : ValueText value)
    (htidy : tidyLine (indent width level ++ (name.toList ++ spaced ("=" :: ws) ++ ";".toList)) =
      indent width level ++ (name.toList ++ " = ".toList ++ value ++ ";".toList)) :
    Sets width level level (name :: "=" :: (ws ++ [";"])) := by
  have hplain : ∀ w ∈ "=" :: ws, Plain w :=
    List.forall_mem_cons.2 ⟨plain_of_char (c := '=') rfl (by decide) (by decide), hws⟩
  have hfree : '\n' ∉ name.toList ++ spaced ("=" :: ws) ++ ";".toList := by
    simp only [List.mem_append, not_or]
    exact ⟨⟨hname.not_mem (by decide), feed_not_mem_spaced hplain⟩, by decide⟩
  refine sets_row level (name.toList ++ spaced ("=" :: ws) ++ ";".toList) (fun cs => ?_) hfree ?_
  · have hinked : Page.Inked
        (cs ++ (indent width level ++ (name.toList ++ spaced ("=" :: ws)))).reverse := by
      rw [← List.append_assoc, ← List.append_assoc]
      exact inked_spaced hplain ((plain_of_inner hname).inked_append _)
    have hsplit : (name :: "=" :: (ws ++ [";"])).map Mark.ofLiteral =
        (name :: "=" :: ws).map Mark.ofLiteral ++ [.semicolon] := by
      rw [← List.cons_append, ← List.cons_append, List.map_append]
      rfl
    rw [hsplit, List.foldl_append, foldl_mark_lineStart (plain_of_inner hname) hplain,
      List.foldl_cons, List.foldl_nil, Page.mark, Page.endStatement_midLine hinked]
    simp only [List.append_assoc]
  · rw [htidy]
    exact .statement hname hvalue .nil

theorem sets_word {name w : String} (hname : Inner name.toList) (hw : Inner w.toList) :
    Sets width level level [name, "=", w, ";"] := by
  have hplain : ∀ v ∈ [w], Plain v := List.forall_mem_singleton.2 (plain_of_inner hw)
  refine sets_statement hname hplain (.word hw) ?_
  rw [← tidyLine_word hname hw]
  simp [spaced]

theorem sets_list {name first : String} {rest : List String} (hname : Inner name.toList)
    (hfirst : Inner first.toList) (hrest : ∀ item ∈ rest, Inner item.toList) :
    Sets width level level (name :: "=" :: ("[" :: first ::
      ((rest.flatMap fun item => [",", item]) ++ ["]"]) ++ [";"])) := by
  have hplain : ∀ w ∈ "[" :: first :: ((rest.flatMap fun item => [",", item]) ++ ["]"]),
      Plain w := by
    refine List.forall_mem_cons.2 ⟨plain_of_char (c := '[') rfl (by decide) (by decide),
      List.forall_mem_cons.2 ⟨plain_of_inner hfirst,
        List.forall_mem_append.2 ⟨fun w hw => ?_, ?_⟩⟩⟩
    · obtain ⟨item, hitem, hw⟩ := List.mem_flatMap.1 hw
      rcases List.mem_cons.1 hw with rfl | hw
      · exact plain_of_char (c := ',') rfl (by decide) (by decide)
      · obtain rfl := List.mem_singleton.1 hw
        exact plain_of_inner (hrest w hitem)
    · exact List.forall_mem_singleton.2 (plain_of_char (c := ']') rfl (by decide) (by decide))
  have hitems : ∀ item ∈ rest.map String.toList, Inner item := List.forall_mem_map.2 hrest
  refine sets_statement hname hplain (.list hfirst hitems) ?_
  rw [← tidyLine_list hname hfirst hitems]
  simp [spaced, List.flatMap_map, List.flatMap_assoc]

/-- The lines of a tidy page of such words. -/
theorem Sets.rows {ws : List String} (h : Sets width 0 0 ws)
    (hne : tidy (Page.ofMarks width (ws.map Mark.ofLiteral)).text ≠ []) :
    Rows width 0 0 (lines (tidy (Page.ofMarks width (ws.map Mark.ofLiteral)).text)) := by
  obtain ⟨raw, hpage, hfree, hrows⟩ := h
  have htext : (Page.ofMarks width (ws.map Mark.ofLiteral)).text = raw.flatMap (· ++ ['\n']) := by
    have hstart : Page.empty width = Page.lineStart width 0 [] := rfl
    rw [Page.ofMarks, hstart, hpage, List.nil_append, Page.text, Page.lineStart,
      List.reverse_reverse]
  have htidy : tidyRows (raw.flatMap (· ++ ['\n'])) = raw.map tidyLine := by
    -- Only the line behind the last line feed is without ink.
    have hinked : (raw.map tidyLine).filter (!·.isEmpty) = raw.map tidyLine :=
      List.filter_eq_self.2 fun row hrow => by simpa using hrows.ne_nil row hrow
    have hempty : ([[]] : List (List Char)).map tidyLine = [[]] := by
      rw [List.map_singleton, tidyLine, tightenClosers, tightenBrackets, tightenBracketsFrom,
        spaceBraces_eq_self List.not_mem_nil]
      rfl
    rw [tidyRows, lines_flatMap_feed hfree, List.map_append, List.filter_append, hinked, hempty]
    exact List.append_nil _
  have hjoin : tidy (raw.flatMap (· ++ ['\n'])) = joinLines (raw.map tidyLine) := by
    rw [tidy_eq, ← htidy, tidyRows]
  rw [htext, hjoin] at hne ⊢
  have hraw : raw.map tidyLine ≠ [] := by
    intro hnil
    rw [hnil] at hne
    exact hne rfl
  rwa [lines_joinLines hraw fun row hrow => (tidyRow_of_mem (htidy ▸ hrow)).free]

end NeuralArch.Layout
