import NeuralArch.Proofs.Layout.Ink
import NeuralArch.Proofs.Layout.Page
import NeuralArch.Proofs.Lexing.Longest

/-!
# Words spread over a page

However the marks of a page follow one another, its tidy text shows their words
in order, and nothing else: no word is lost, none is torn at a place without an
opening brace, and two words touch only at a closer or behind an opening bracket.
So marks that are tokens are read as these tokens.

* `Spread` — the ways a text may show words in order.
* `rearranged_ofMarks` — a page holds the ink of its marks, each behind a blank.
* `spread_of_rearranged` — ink of words that is rearranged shows them.
* `ofText_tidy` — the tokens of a tidy page.
* `spread_tidy` — the words and the tokens of a tidy page.
-/

namespace NeuralArch.Layout

open Text Lexing

/-! ## Pages -/

namespace Page

theorem Apart.blankBehind {p : Page} (h : p.Apart) : blankBehind true p.text = true := by
  unfold Apart at h
  rw [Layout.blankBehind, text, List.getLast?_reverse]
  cases hr : p.reversed.head? with
  | none => rfl
  | some c =>
    rw [hr, Option.all_some] at h
    exact h

theorem ink_pad (p : Page) : ink true p.pad.text = ink true p.text := by
  obtain ⟨blanks, hpad, hblanks⟩ := exists_pad p
  rw [text, hpad, List.reverse_append, ink_append_blanks, text]
  intro c hc
  rw [hblanks c (List.mem_reverse.1 hc)]
  decide

theorem ink_newLine (p : Page) : ink true p.newLine.text = ink true p.text := by
  have hspaces : ∀ c ∈ (p.reversed.takeWhile (· == ' ')).reverse, isBlank c = true := by
    intro c hc
    rw [List.mem_reverse] at hc
    exact isBlank_of_eq_space (List.all_eq_true.1 List.all_takeWhile c hc)
  have hsplit : p.text = (p.reversed.dropWhile (· == ' ')).reverse ++
      (p.reversed.takeWhile (· == ' ')).reverse := by
    rw [text, ← List.reverse_append, List.takeWhile_append_dropWhile]
  rw [text, newLine, List.reverse_cons, ink_append_feed, ink_nil, List.append_nil, hsplit,
    ink_append_blanks true _ hspaces]

/-- What is put where there is room stands behind a blank. -/
theorem Ready.ink_pad_put {p : Page} (h : p.Ready) (cs : List Char) :
    ink true (p.pad.put cs).text = ink true p.text ++ ink true cs := by
  have htext : (p.pad.put cs).text = p.pad.text ++ cs := by
    rw [text, put, List.reverse_append, List.reverse_reverse, text]
  rw [htext, ink_append, ink_pad, h.apart_pad.blankBehind]

theorem ink_write {p : Page} (h : p.Ready) (word : String) :
    ink true (p.write word).text = ink true p.text ++ ink true word.toList := by
  unfold write
  split
  · next hempty =>
    rw [String.isEmpty_iff] at hempty
    rw [hempty, String.toList_empty, ink_nil, List.append_nil]
  · exact h.ink_pad_put word.toList

theorem ink_openBrace {p : Page} (h : p.Ready) :
    ink true p.openBrace.text = ink true p.text ++ ink true ['\x7b'] := by
  rw [openBrace, ink_newLine]
  exact h.ink_pad_put ['\x7b']

theorem ink_closeBrace {p : Page} (h : p.Ready) :
    ink true p.closeBrace.text = ink true p.text ++ ink true ['\x7d'] := by
  unfold closeBrace
  dsimp only
  rw [ink_newLine]
  split
  · exact Ready.ink_pad_put (p := { p with level := p.level - 1 }) h ['\x7d']
  · rw [(ready_newLine _).ink_pad_put, ink_newLine]
    rfl

/-- A semicolon stands behind a blank only where the text is empty. -/
theorem exists_ink_endStatement (p : Page) :
    ∃ f, ink true p.endStatement.text = ink true p.text ++ [(f, ';')] := by
  obtain ⟨blanks, hsplit, hblanks⟩ := exists_trimEnd_append p.text
  refine ⟨Layout.blankBehind true (trimEnd p.text), ?_⟩
  have htext : (p.reversed.dropWhile isBlank).reverse = trimEnd p.text := by
    rw [trimEnd, text, List.reverse_reverse]
  have hink : ink true p.text = ink true (trimEnd p.text) := by
    conv_lhs => rw [hsplit]
    exact ink_append_blanks true _ hblanks
  rw [endStatement, ink_newLine, text, List.reverse_cons, htext, ink_append, hink,
    ink_cons_of_not_isBlank _ (by decide), ink_nil]

/-- A mark adds its ink to that of the page. -/
theorem exists_ink_mark {p : Page} (h : p.Ready) (m : Mark) :
    ∃ xs, ink true (p.mark m).text = ink true p.text ++ xs ∧
      ∀ prev, Rearranged prev (ink true m.text.toList) xs := by
  cases m with
  | word w => exact ⟨_, ink_write h w, fun _ => .refl _ _⟩
  | value w => exact ⟨_, ink_write h w, fun _ => .refl _ _⟩
  | openBrace => exact ⟨_, ink_openBrace h, fun _ => .refl _ _⟩
  | closeBrace => exact ⟨_, ink_closeBrace h, fun _ => .refl _ _⟩
  | semicolon =>
    obtain ⟨f, hf⟩ := exists_ink_endStatement p
    refine ⟨_, hf, fun prev => ?_⟩
    have hcloser := @rearranged_closer prev ';' (by decide) [] f
    rwa [ink_cons_of_not_isBlank f (by decide)] at hcloser

theorem rearranged_foldl_mark {p : Page} (h : p.Ready) (marks : List Mark) :
    Rearranged none (ink true p.text ++ marks.flatMap fun m => ink true m.text.toList)
      (ink true (marks.foldl mark p).text) := by
  induction marks generalizing p with
  | nil =>
    rw [List.flatMap_nil, List.append_nil]
    exact .refl none _
  | cons m marks ih =>
    obtain ⟨xs, hink, hxs⟩ := exists_ink_mark h m
    refine Rearranged.trans ?_ (ih (ready_mark h m))
    rw [hink, List.flatMap_cons, List.append_assoc]
    exact (Rearranged.refl none _).append fun prev => (hxs prev).append fun _ => .refl _ _

/-- A page holds the ink of its marks, each behind a blank; only semicolons may lose theirs. -/
theorem rearranged_ofMarks (width : Nat) (marks : List Mark) :
    Rearranged none (marks.flatMap fun m => ink true m.text.toList)
      (ink true (ofMarks width marks).text) :=
  rearranged_foldl_mark (ready_empty width) marks

end Page

/-- The ink of a tidy page is that of its marks, rearranged. -/
theorem rearranged_tidy_ofMarks (width : Nat) (marks : List Mark) :
    Rearranged none (marks.flatMap fun m => ink true m.text.toList)
      (ink true (tidy (Page.ofMarks width marks).text)) :=
  (Page.rearranged_ofMarks width marks).trans (rearranged_tidy _)

/-- Without its blanks, a tidy page is the texts of its marks. -/
theorem filter_tidy_ofMarks (width : Nat) (marks : List Mark) :
    (tidy (Page.ofMarks width marks).text).filter (!isBlank ·) =
      marks.flatMap fun m => m.text.toList.filter (!isBlank ·) := by
  have hchars := (rearranged_tidy_ofMarks width marks).map_snd
  rw [map_snd_ink, List.map_flatMap] at hchars
  rw [hchars]
  exact List.flatMap_congr fun m _ => map_snd_ink true m.text.toList

/-! ## Words in order -/

/-- Whether a word may touch the word before it, if there is one. -/
def Touches (before : Option (List Char)) (w : List Char) : Prop :=
  ∀ v ∈ before, w.head?.any isCloser = true ∨ v.getLast? = some '['

/-- Whether characters show a word: they begin and end as the word does, and blanks stand in it
only where the word has an opening brace inside. -/
structure Shows (cs w : List Char) : Prop where
  filter_eq : cs.filter (!isBlank ·) = w
  head_eq : cs.head? = w.head?
  last_eq : cs.getLast? = w.getLast?
  eq_of_not_mem : '\x7b' ∉ w.tail → cs = w

/-- The texts that show words in order behind a word or behind nothing: blanks stand before
every word, except where it may touch the word before it. -/
inductive Spread : Option (List Char) → List (List Char) → List Char → Prop
  | nil {before : Option (List Char)} {gap : List Char} (hgap : ∀ c ∈ gap, isBlank c = true) :
    Spread before [] gap
  | cons {before : Option (List Char)} {gap cs w rest : List Char} {words : List (List Char)}
    (hgap : ∀ c ∈ gap, isBlank c = true) (htouch : gap = [] → Touches before w)
    (hword : Shows cs w) (hrest : Spread (some w) words rest) :
    Spread before (w :: words) (gap ++ (cs ++ rest))

/-- The first ink of a text, with the gap before it. -/
theorem exists_of_ink_eq_cons {f g : Bool} {c : Char} {cs : List Char} {xs : List (Bool × Char)}
    (h : ink f cs = (g, c) :: xs) :
    ∃ gap rest, cs = gap ++ c :: rest ∧ xs = ink false rest ∧ isBlank c = false ∧
      (∀ d ∈ gap, isBlank d = true) ∧ (gap = [] → g = f) ∧ (gap ≠ [] → g = true) := by
  induction cs generalizing f with
  | nil => simp at h
  | cons d cs ih =>
    by_cases hblank : isBlank d = true
    · rw [ink_cons_of_isBlank f hblank] at h
      obtain ⟨gap, rest, rfl, hxs, hc, hgap, hnil, hcons⟩ := ih h
      refine ⟨d :: gap, rest, rfl, hxs, hc, List.forall_mem_cons.2 ⟨hblank, hgap⟩, by simp,
        fun _ => ?_⟩
      by_cases hempty : gap = []
      · exact hnil hempty
      · exact hcons hempty
    · rw [Bool.not_eq_true] at hblank
      rw [ink_cons_of_not_isBlank f hblank] at h
      obtain ⟨hhead, rfl⟩ := List.cons.inj h
      obtain ⟨rfl, rfl⟩ := Prod.mk.inj hhead
      exact ⟨[], cs, rfl, rfl, hblank, by simp, fun _ => rfl, fun hne => absurd rfl hne⟩

/-- The ink of a word without blanks. -/
theorem ink_eq_map {w : List Char} (h : ∀ c ∈ w, isBlank c = false) :
    ink false w = w.map (false, ·) := by
  induction w with
  | nil => rfl
  | cons c w ih =>
    rw [List.forall_mem_cons] at h
    rw [ink_cons_of_not_isBlank _ h.1, ih h.2, List.map_cons]

/-- What is left of a word behind its first character `c` is shown, and behind it the ink of what
follows is left. -/
theorem exists_shown {c : Char} {t cs : List Char} {xs : List (Bool × Char)}
    (h : Rearranged (some c) (t.map (false, ·) ++ xs) (ink false cs)) :
    ∃ shown rest, cs = shown ++ rest ∧ shown.filter (!isBlank ·) = t ∧
      (c :: shown).getLast? = (c :: t).getLast? ∧ ('\x7b' ∉ t → shown = t) ∧
      Rearranged (c :: t).getLast? xs (ink false rest) := by
  induction t generalizing c cs with
  | nil => exact ⟨[], cs, rfl, rfl, rfl, fun _ => rfl, h⟩
  | cons d t ih =>
    rw [List.map_cons, List.cons_append] at h
    generalize hink : ink false cs = ys at h
    cases h with
    | @cons _ _ g _ _ ys _ hcomes hrest =>
      obtain ⟨gap, rest, rfl, rfl, hd, hgap, -, hspaced⟩ := exists_of_ink_eq_cons hink
      obtain ⟨shown, rest, rfl, hfilter, hlast, hshown, hrest⟩ := ih hrest
      refine ⟨gap ++ d :: shown, rest, by simp, ?_, ?_, fun hbrace => ?_, ?_⟩
      · rw [List.filter_append, List.filter_eq_nil_iff.2 (by simpa using hgap),
          List.filter_cons_of_pos (by simp [hd]), hfilter, List.nil_append]
      · rw [← List.cons_append, List.getLast?_append_cons, hlast, List.getLast?_cons_cons]
      · rw [List.mem_cons, not_or] at hbrace
        have hnil : gap = [] := by
          by_contra hne
          rcases hcomes (hspaced hne) with h | h
          · exact Bool.false_ne_true h
          · exact hbrace.1 h.symm
        rw [hnil, hshown hbrace.2, List.nil_append]
      · rw [List.getLast?_cons_cons]
        exact hrest

/-- Behind a word `before`, ink that begins with a rearranged word shows it. -/
theorem spread_of_rearranged {before : Option (List Char)} {prev : Option Char} {f : Bool}
    {words : List (List Char)} {cs : List Char}
    (hwords : ∀ w ∈ words, w ≠ [] ∧ ∀ c ∈ w, isBlank c = false)
    (hbefore : ∀ v ∈ before, f = false ∧ prev = v.getLast?)
    (h : Rearranged prev (words.flatMap (ink true)) (ink f cs)) : Spread before words cs := by
  induction words generalizing before prev f cs with
  | nil =>
    generalize hink : ink f cs = ys at h
    cases h with
    | nil => exact .nil (ink_eq_nil_iff.1 hink)
  | cons w words ih =>
    rw [List.forall_mem_cons] at hwords
    obtain ⟨⟨hne, hblank⟩, hwords⟩ := hwords
    match w, hne with
    | c :: t, _ =>
      rw [List.forall_mem_cons] at hblank
      rw [List.flatMap_cons, ink_cons_of_not_isBlank true hblank.1, ink_eq_map hblank.2,
        List.cons_append] at h
      generalize hink : ink f cs = ys at h
      cases h with
      | @cons _ _ g _ _ ys hgoes _ hrest =>
        obtain ⟨gap, rest, rfl, rfl, hc, hgap, htight, -⟩ := exists_of_ink_eq_cons hink
        obtain ⟨shown, rest, rfl, hfilter, hlast, hshown, hrest⟩ := exists_shown hrest
        have htouch : gap = [] → Touches before (c :: t) := by
          intro hnil v hv
          obtain ⟨rfl, rfl⟩ := hbefore v hv
          rcases hgoes rfl with hg | hcloser | hbracket
          · rw [htight hnil] at hg
            exact absurd hg Bool.false_ne_true
          · exact .inl hcloser
          · exact .inr hbracket
        have hword : Shows (c :: shown) (c :: t) :=
          ⟨by rw [List.filter_cons_of_pos (by simp [hc]), hfilter], rfl, hlast,
            fun hbrace => by rw [hshown hbrace]⟩
        have hspread := @ih (some (c :: t)) _ _ _ hwords
          (fun v hv => ⟨rfl, by rw [← Option.mem_some_iff.1 hv]⟩) hrest
        exact .cons hgap htouch hword hspread

/-! ## From marks to tokens -/

/-- The blanks that layout puts into a text are separators of tokens. -/
theorem isSeparator_of_mem_tidy {width : Nat} {marks : List Mark}
    (h : ∀ w ∈ marks.map Mark.text, ∃ k, w.toList ∈ pattern k) {c : Char}
    (hc : c ∈ tidy (Page.ofMarks width marks).text) (hblank : isBlank c = true) :
    Token.isSeparator c = true := by
  have hpage : c ∈ (Page.ofMarks width marks).text → Token.isSeparator c = true := by
    intro hc
    rcases Page.mem_foldl_mark (List.mem_reverse.1 hc) with hnil | ⟨m, hm, hc⟩ | rfl | rfl
    · simp [Page.empty] at hnil
    · obtain ⟨k, hk⟩ := h m.text (List.mem_map_of_mem hm)
      rw [(isWord_of_mem_pattern hk).not_isBlank c hc] at hblank
      exact absurd hblank Bool.false_ne_true
    · decide
    · decide
  rcases mem_tidy hc with hc | rfl | rfl | rfl
  · exact hpage hc
  · decide
  · exact absurd hblank (by decide)
  · decide

/-- The words on a page are the tokens of its tidy text, if each could be one. -/
theorem exists_ofText_tidy (width : Nat) {marks : List Mark}
    (h : ∀ w ∈ marks.map Mark.text, ∃ k, w.toList ∈ pattern k) :
    ∃ ts, Token.ofText (String.ofList (tidy (Page.ofMarks width marks).text)) = .ok ts ∧
      ts.map Token.value = marks.map Mark.text := by
  have hscan : scan (tidy (Page.ofMarks width marks).text) =
      marks.map fun m => m.text.toList := by
    have hone : ∀ m ∈ marks, scan m.text.toList = [m.text.toList] := by
      intro m hm
      obtain ⟨k, hk⟩ := h m.text (List.mem_map_of_mem hm)
      exact (isWord_of_mem_pattern hk).scan_eq
    rw [scan_tidy, Page.scan_ofMarks, List.flatMap_congr hone]
    exact List.flatMap_pure_eq_map _ _
  obtain ⟨ts, hts, hvalues⟩ := @exists_ofText_of_scan
    (String.ofList (tidy (Page.ofMarks width marks).text))
    (by
      rw [String.toList_ofList]
      exact fun c hc => isSeparator_of_mem_tidy h hc)
    (by
      rw [String.toList_ofList, hscan]
      intro w hw
      obtain ⟨m, hm, rfl⟩ := List.mem_map.1 hw
      exact h m.text (List.mem_map_of_mem hm))
  refine ⟨ts, hts, ?_⟩
  rw [String.toList_ofList, hscan] at hvalues
  refine List.map_injective_iff.2 (fun _ _ => String.toList_inj.1) ?_
  rw [List.map_map, List.map_map]
  exact hvalues

/-- Whether a text is one token of a kind, and nothing else. -/
def IsToken (word : String) (k : Token.Kind) : Prop :=
  ∃ pos, Token.ofText word = .ok [⟨k, word, pos⟩]

/-- What fits a kind is one token of it. -/
theorem isToken_iff {word : String} {k : Token.Kind} : IsToken word k ↔ word.toList ∈ pattern k := by
  refine ⟨fun ⟨pos, htokens⟩ => fits_of_ofText htokens _ (List.mem_singleton_self _), fun hk => ?_⟩
  have hscan : scan word.toList = [word.toList] := (isWord_of_mem_pattern hk).scan_eq
  obtain ⟨ts, hts, hvalues⟩ := @exists_ofText_of_scan word
    (fun c hc hblank => by
      rw [(isWord_of_mem_pattern hk).not_isBlank c hc] at hblank
      exact absurd hblank Bool.false_ne_true)
    (by
      rw [hscan]
      exact fun w hw => ⟨k, List.mem_singleton.1 hw ▸ hk⟩)
  rw [hscan] at hvalues
  obtain ⟨t, rfl, hvalue⟩ := List.map_eq_singleton_iff.1 hvalues
  rw [String.toList_inj] at hvalue
  have hkind : word.toList ∈ pattern t.kind := by
    rw [← hvalue]
    exact fits_of_ofText hts t (List.mem_singleton_self t)
  refine ⟨t.pos, ?_⟩
  rw [hts, ← pattern_injective hkind hk, ← hvalue]

/-- Tokens that fit their kinds have the kinds that their texts fit. -/
theorem map_kind_of_forall₂ {marks : List Mark} {kinds : List Token.Kind} {ts : List Token}
    (hmarks : List.Forall₂ (fun m k => IsToken m.text k) marks kinds)
    (hvalues : ts.map Token.value = marks.map Mark.text) (hfits : ∀ t ∈ ts, Fits t) :
    ts.map Token.kind = kinds := by
  induction hmarks generalizing ts with
  | nil => rw [List.map_eq_nil_iff.1 hvalues, List.map_nil]
  | @cons m k marks kinds hm _ ih =>
    match ts with
    | t :: ts =>
      obtain ⟨hvalue, hvalues⟩ := List.cons.inj hvalues
      rw [List.forall_mem_cons] at hfits
      have hkind : t.value.toList ∈ pattern k := by
        rw [hvalue]
        exact isToken_iff.1 hm
      rw [List.map_cons, pattern_injective hfits.1 hkind, ih hvalues hfits.2]

/-- Marks that are tokens are read from the tidy page, in order. -/
theorem ofText_tidy (width : Nat) {marks : List Mark} {kinds : List Token.Kind}
    (h : List.Forall₂ (fun m k => IsToken m.text k) marks kinds) :
    ∃ ts, Token.ofText (String.ofList (tidy (Page.ofMarks width marks).text)) = .ok ts ∧
      ts.map Token.kind = kinds ∧ ts.map Token.value = marks.map Mark.text := by
  have hpatterns : ∀ w ∈ marks.map Mark.text, ∃ k, w.toList ∈ pattern k := by
    induction h with
    | nil => simp
    | @cons m k _ _ hm _ ih => exact List.forall_mem_cons.2 ⟨⟨k, isToken_iff.1 hm⟩, ih⟩
  obtain ⟨ts, hts, hvalues⟩ := exists_ofText_tidy width hpatterns
  exact ⟨ts, hts, map_kind_of_forall₂ h hvalues (fits_of_ofText hts), hvalues⟩

/-- Layout never changes what is written. Whatever words are written in whatever order, the tidy
text without its blanks is the words; it shows them in order, apart unless the second begins
with a closer or the first ends with an opening bracket; and words that are tokens are read
from it as these tokens. -/
theorem spread_tidy (width : Nat) (marks : List Mark)
    (hmarks : ∀ m ∈ marks, m.text ≠ "" ∧ ∀ c ∈ m.text.toList, isBlank c = false) :
    (tidy (Page.ofMarks width marks).text).filter (!isBlank ·) =
        marks.flatMap (fun m => m.text.toList) ∧
      Spread none (marks.map fun m => m.text.toList) (tidy (Page.ofMarks width marks).text) ∧
      ∀ kinds, List.Forall₂ (fun m k => IsToken m.text k) marks kinds →
        ∃ ts, Token.ofText (String.ofList (tidy (Page.ofMarks width marks).text)) = .ok ts ∧
          ts.map Token.kind = kinds ∧ ts.map Token.value = marks.map Mark.text := by
  refine ⟨?_, ?_, fun kinds => ofText_tidy width⟩
  · rw [filter_tidy_ofMarks]
    refine List.flatMap_congr fun m hm => List.filter_eq_self.2 fun c hc => ?_
    rw [(hmarks m hm).2 c hc, Bool.not_false]
  · refine @spread_of_rearranged none none true _ _ ?_ ?_ ?_
    · intro w hw
      obtain ⟨m, hm, rfl⟩ := List.mem_map.1 hw
      refine ⟨fun hnil => (hmarks m hm).1 ?_, (hmarks m hm).2⟩
      exact String.toList_eq_nil_iff.1 hnil
    · intro v hv
      simp at hv
    · rw [List.flatMap_map]
      exact rearranged_tidy_ofMarks width marks

/-- Marks of no description: braces that do not match, and semicolons behind them. -/
def oddMarks : List Mark :=
  [.closeBrace, .semicolon, .word "dense", .openBrace, .word "[", .value "3", .word ",",
    .value "-5", .word "]", .openBrace, .semicolon]

theorem spread_oddMarks :
    (tidy (Page.ofMarks 2 oddMarks).text).filter (!isBlank ·) =
        "\x7d;dense\x7b[3,-5]\x7b;".toList ∧
      Spread none (oddMarks.map fun m => m.text.toList) (tidy (Page.ofMarks 2 oddMarks).text) ∧
      ∃ ts, Token.ofText (String.ofList (tidy (Page.ofMarks 2 oddMarks).text)) = .ok ts ∧
        ts.map Token.value = oddMarks.map Mark.text := by
  have hchecks : oddMarks.all (fun m => m.text != "" && m.text.toList.all (!isBlank ·)) = true := by
    decide
  have hmarks : ∀ m ∈ oddMarks, m.text ≠ "" ∧ ∀ c ∈ m.text.toList, isBlank c = false := by
    intro m hm
    have hcheck := List.all_eq_true.1 hchecks m hm
    rw [Bool.and_eq_true, bne_iff_ne] at hcheck
    exact ⟨hcheck.1, not_isBlank_of_all hcheck.2⟩
  let kinds : List Token.Kind :=
    [.rbrace, .semicolon, .layer .dense, .lbrace, .lsqb, .int, .comma, .int, .rsqb, .lbrace,
      .semicolon]
  have hread : ∀ p ∈ oddMarks.zip kinds,
      (Token.ofText p.1.text).toOption = some [⟨p.2, p.1.text, .start⟩] := by
    decide +kernel
  have hkinds : List.Forall₂ (fun m k => IsToken m.text k) oddMarks kinds := by
    refine List.forall₂_iff_zip.2 ⟨rfl, fun {m k} hp => ⟨.start, ?_⟩⟩
    have htoken := hread (m, k) hp
    cases h : Token.ofText m.text with
    | error e => simp [h, Except.toOption] at htoken
    | ok us =>
      rw [h] at htoken
      rw [Option.some.inj htoken]
  obtain ⟨hwords, hspread, htokens⟩ := spread_tidy 2 oddMarks hmarks
  obtain ⟨ts, hts, -, hvalues⟩ := htokens kinds hkinds
  exact ⟨hwords, hspread, ts, hts, hvalues⟩

end NeuralArch.Layout
