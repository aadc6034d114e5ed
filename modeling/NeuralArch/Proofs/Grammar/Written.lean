import NeuralArch.Proofs.Grammar.Flattening
import NeuralArch.Proofs.Grammar.Standard

/-!
# Grammars and the texts they are written in

A list of definitions can be written in many ways: white space and line feeds
stand at will between tokens, and have to stand only between two tokens of one
alternative; an alternative may be empty between its bars; comment lines stand
anywhere. Whatever the way, reading the text gives the grammar that the
definitions build one after another.

A header ends where `::=` ends, and no body holds that text: no token does, and
it cannot come about where two pieces meet, since it has neither blanks nor
bars. A header behind a body begins with `<`, which no header has inside. So
headers are found where they are written and nowhere else.

Main results:

* `Written.joined` — a text stays a text of its definitions on one line.
* `header?_header`, `sections_append` — headers, and texts without one.
* `alternatives_spaced` — the alternatives in a body.
* `ofText_written` — the grammar of a text of definitions.
-/

namespace NeuralArch.Grammar

open Text

/-! ## Definitions -/

/-- A name that a definition can have. -/
structure Name where
  text : String
  ne_nil : text.toList ≠ []
  isNameChar : ∀ c ∈ text.toList, isNameChar c = true

/-- What a header has behind the name. -/
def sign : List Char := [':', ':', '=']

theorem not_isBlank_of_mem_sign : ∀ c ∈ sign, isBlank c = false := by
  intro c hc
  simp only [sign, List.mem_cons, List.not_mem_nil, or_false] at hc
  rcases hc with rfl | rfl | rfl <;> decide

/-- A token of an alternative. -/
structure Word where
  text : String
  ne_nil : text.toList ≠ []
  isInner : ∀ c ∈ text.toList, isBlank c = false ∧ c ≠ '|'
  not_sign : ¬ sign <:+: text.toList

/-- A name with its alternatives. An alternative may have no tokens. -/
structure Definition where
  name : Name
  alternatives : List (List Word)

/-- Whether some alternative has a token. -/
def Definition.hasTokens (d : Definition) : Bool := d.alternatives.any (!·.isEmpty)

/-- Gives a grammar one more alternative, if that has tokens. -/
def extend (symbol : String) (g : Grammar) (tokens : List Word) : Grammar :=
  match g.add symbol (tokens.map Word.text) with
  | .ok g' => g'
  | .error _ => g

/-- Puts the alternatives of a definition in place of those its name has. -/
def apply (g : Grammar) (d : Definition) : Grammar :=
  if d.hasTokens then d.alternatives.foldl (extend d.name.text) (g.discard d.name.text) else g

/-- The grammar that definitions build one after another. -/
def ofDefinitions (ds : List Definition) : Grammar := ds.foldl apply empty

/-! ## Texts of definitions -/

/-- A text of alternatives: the rest of the first, and those behind it. Blanks stand in front of
each token and each bar. Behind a token stands a blank, a bar or nothing. -/
inductive Spaced : List Word → List (List Word) → List Char → Prop
  | nil : Spaced [] [] []
  | word {gap rest : List Char} {ws : List Word} {later : List (List Word)} (w : Word)
      (hgap : Blank gap) (hstop : ∀ c ∈ rest.head?, isBlank c = true ∨ c = '|')
      (tail : Spaced ws later rest) : Spaced (w :: ws) later (gap ++ (w.text.toList ++ rest))
  | bar {gap rest : List Char} {ws : List Word} {later : List (List Word)} (hgap : Blank gap)
      (tail : Spaced ws later rest) : Spaced [] (ws :: later) (gap ++ '|' :: rest)

/-- The header of a definition, with blanks inside. -/
def header (name : Name) (gap : List Char) : List Char :=
  '<' :: (name.text.toList ++ '>' :: (gap ++ sign))

/-- A text of definitions: each is written as its header and its alternatives, among which empty
ones may be left out or put in. -/
inductive Written : List Definition → List Char → Prop
  | nil {gap : List Char} (hgap : Blank gap) : Written [] gap
  | cons {d : Definition} {ds : List Definition} {lead gap body rest : List Char}
      {first : List Word} {later : List (List Word)} (hlead : Blank lead) (hgap : Blank gap)
      (hbody : Spaced first later body)
      (halternatives : (first :: later).filter (!·.isEmpty) = d.alternatives.filter (!·.isEmpty))
      (tail : Written ds rest) :
      Written (d :: ds) (lead ++ (header d.name gap ++ (body ++ rest)))

/-! ## Texts on one line -/

theorem Spaced.exists_continued {first : List Word} {later : List (List Word)} {body : List Char}
    (h : Spaced first later body) (cs : List Char) :
    ∃ body', Spaced first later body' ∧ continued (body ++ cs) = body' ++ continued cs := by
  induction h with
  | nil => exact ⟨[], .nil, rfl⟩
  | @word gap rest ws later w hgap hstop tail ih =>
    obtain ⟨rest', hrest', h⟩ := ih
    obtain ⟨c, letters, hw⟩ := List.exists_cons_of_ne_nil w.ne_nil
    have hinner : ∀ d ∈ w.text.toList, isBlank d = false := fun d hd => (w.isInner d hd).1
    have hc : isBlank c = false := hinner c (by rw [hw]; exact List.mem_cons_self ..)
    obtain ⟨gap', hgap', hfirst⟩ := exists_continued_gap hgap hc (letters ++ (rest ++ cs))
    rw [← continued_char hc, ← List.cons_append, ← hw, continued_append hinner, h] at hfirst
    refine ⟨gap' ++ (w.text.toList ++ rest'), .word w hgap' ?_ hrest', ?_⟩
    · -- What stands behind the token is a blank or a bar, and stays one.
      intro d hd
      cases rest with
      | nil =>
        obtain rfl : rest' = [] := by simpa using h.symm
        simp at hd
      | cons e rest =>
        obtain ⟨d', ds, hcons, heq⟩ := exists_continued_cons e (rest ++ cs)
        obtain ⟨tail', rfl⟩ := List.head?_eq_some_iff.1 hd
        obtain ⟨rfl, -⟩ := List.cons.inj (hcons.symm.trans h)
        rcases heq with rfl | ⟨-, hblank⟩
        · exact hstop d' rfl
        · exact .inl hblank
    · simp only [List.append_assoc] at hfirst ⊢
      exact hfirst
  | @bar gap rest ws later hgap tail ih =>
    obtain ⟨rest', hrest', h⟩ := ih
    obtain ⟨gap', hgap', hfirst⟩ := exists_continued_gap hgap (by decide : isBlank '|' = false)
      (rest ++ cs)
    refine ⟨gap' ++ '|' :: rest', .bar hgap' hrest', ?_⟩
    rw [List.append_assoc, List.cons_append, hfirst, h, List.append_assoc, List.cons_append]

theorem Name.not_isBlank (name : Name) : ∀ c ∈ name.text.toList, isBlank c = false := by
  intro c hc
  have hname := name.isNameChar c hc
  simp only [Grammar.isNameChar, Bool.and_eq_true, Bool.not_eq_true'] at hname
  exact hname.2

theorem continued_header {gap : List Char} (name : Name) (hgap : Blank gap) (cs : List Char) :
    ∃ gap', Blank gap' ∧
      continued (header name gap ++ cs) = header name gap' ++ continued cs := by
  obtain ⟨gap', hgap', h⟩ := exists_continued_gap hgap (by decide : isBlank ':' = false)
    ([':', '='] ++ cs)
  have hcolon : isBlank ':' = false := by decide
  have hsign := continued_append not_isBlank_of_mem_sign cs
  rw [← continued_char hcolon] at h
  have htext : ∀ gap cs, header name gap ++ cs =
      '<' :: (name.text.toList ++ '>' :: (gap ++ (sign ++ cs))) := by
    intro gap cs
    simp only [header, List.cons_append, List.append_assoc]
  refine ⟨gap', hgap', ?_⟩
  rw [htext, htext, continued_char (by decide), continued_append name.not_isBlank,
    continued_char (by decide), ← hsign]
  exact congrArg (fun cs => '<' :: (name.text.toList ++ '>' :: cs)) h

/-- What stands behind the blanks before a header, on one line. -/
theorem Written.cons_continued {d : Definition} {ds : List Definition}
    {lead gap body rest : List Char} {first : List Word} {later : List (List Word)}
    (hlead : Blank lead) (hgap : Blank gap) (hbody : Spaced first later body)
    (halternatives : (first :: later).filter (!·.isEmpty) = d.alternatives.filter (!·.isEmpty))
    (tail : Written ds (Grammar.continued rest)) :
    Written (d :: ds) (lead ++ '<' ::
      Grammar.continued (d.name.text.toList ++ '>' :: (gap ++ sign) ++ (body ++ rest))) := by
  obtain ⟨gap', hgap', hheader⟩ := continued_header d.name hgap (body ++ rest)
  obtain ⟨body', hbody', hrest⟩ := hbody.exists_continued rest
  rw [← continued_char (by decide), ← List.cons_append, ← header, hheader, hrest]
  exact .cons hlead hgap' hbody' halternatives tail

theorem Written.continued {ds : List Definition} {cs : List Char} (h : Written ds cs) :
    Written ds (continued cs) := by
  induction h with
  | nil hgap => exact .nil (blank_continued hgap)
  | cons hlead hgap hbody halternatives tail ih =>
    obtain ⟨lead', hlead', hfirst⟩ :=
      exists_continued_gap hlead (by decide : isBlank '<' = false) _
    rw [header, List.cons_append, hfirst]
    exact .cons_continued hlead' hgap hbody halternatives ih

/-- A text of definitions is one of the same definitions on one line. -/
theorem Written.joined {ds : List Definition} {cs : List Char} (h : Written ds cs) :
    Written ds (joined cs) := by
  cases h with
  | nil hgap => exact .nil (blank_joined hgap)
  | cons hlead hgap hbody halternatives tail =>
    obtain ⟨lead', hlead', hfirst⟩ := exists_joined_gap hlead (by decide : isBlank '<' = false) _
    rw [header, List.cons_append, hfirst]
    exact .cons_continued hlead' hgap hbody halternatives tail.continued

/-! ## Headers -/

/-- Where a header is found, it has its sign at its end, and no `<` inside. -/
theorem exists_of_header? {cs name rest : List Char} (h : header? cs = some (name, rest)) :
    ∃ inner, '<' ∉ inner ∧ sign <:+ inner ∧ cs = '<' :: (inner ++ rest) := by
  unfold header? at h
  split at h
  · next cs =>
    dsimp only at h
    split at h
    · simp at h
    · split at h
      · next tail ht =>
        split at h
        · next rest' hr =>
          obtain ⟨rfl, rfl⟩ := Prod.mk.inj (Option.some.inj h)
          have hcs := List.takeWhile_append_dropWhile (p := isNameChar) (l := cs)
          have htail := List.takeWhile_append_dropWhile (p := isBlank) (l := tail)
          rw [trimStart] at hr
          rw [hr] at htail
          rw [ht, ← htail] at hcs
          refine ⟨cs.takeWhile isNameChar ++ '>' :: (tail.takeWhile isBlank ++ sign), ?_, ?_, ?_⟩
          · intro hmem
            rcases List.mem_append.1 hmem with hmem | hmem
            · exact absurd (List.all_eq_true.1 List.all_takeWhile _ hmem) (by decide)
            · rcases List.mem_append.1 (List.mem_of_ne_of_mem (by decide) hmem) with hmem | hmem
              · exact absurd (List.all_eq_true.1 List.all_takeWhile _ hmem) (by decide)
              · exact absurd hmem (by decide)
          · exact ⟨cs.takeWhile isNameChar ++ '>' :: tail.takeWhile isBlank, by simp⟩
          · refine congrArg ('<' :: ·) (hcs.symm.trans ?_)
            simp [sign]
        · simp at h
      · simp at h
  · simp at h

/-- A header is found where it is written. -/
theorem header?_header {gap : List Char} (name : Name) (hgap : Blank gap) (rest : List Char) :
    header? (header name gap ++ rest) = some (name.text.toList, rest) := by
  have htake : (name.text.toList ++ '>' :: (gap ++ (sign ++ rest))).takeWhile isNameChar =
      name.text.toList := by
    rw [List.takeWhile_append_of_pos name.isNameChar, List.takeWhile_cons_of_neg (by decide),
      List.append_nil]
  have hdrop : (name.text.toList ++ '>' :: (gap ++ (sign ++ rest))).dropWhile isNameChar =
      '>' :: (gap ++ (sign ++ rest)) := by
    rw [List.dropWhile_append_of_pos name.isNameChar, List.dropWhile_cons_of_neg (by decide)]
  have htrim : trimStart (gap ++ (sign ++ rest)) = ':' :: ':' :: '=' :: rest := by
    rw [trimStart, List.dropWhile_append_of_pos hgap]
    exact List.dropWhile_cons_of_neg (by decide)
  have hne : ¬ name.text.toList.isEmpty = true := by
    rw [List.isEmpty_iff]
    exact name.ne_nil
  have htext : header name gap ++ rest =
      '<' :: (name.text.toList ++ '>' :: (gap ++ (sign ++ rest))) := by
    simp [header]
  rw [htext, header?, htake, if_neg hne, hdrop]
  simp only [htrim]

/-! ## Texts without a header -/

/-- Nothing comes about where two texts meet, if one side does not allow it. -/
theorem not_infix_append {s xs ys : List Char} (hxs : ¬ s <:+: xs) (hys : ¬ s <:+: ys)
    (hmeet : (∀ c ∈ xs.getLast?, c ∉ s) ∨ ∀ c ∈ ys.head?, c ∉ s) : ¬ s <:+: xs ++ ys := by
  rw [List.infix_append_iff]
  rintro (h | h | ⟨front, back, rfl, hfront, hback⟩)
  · exact hxs h
  · exact hys h
  · rcases hmeet with hmeet | hmeet
    · rcases List.eq_nil_or_concat front with rfl | ⟨init, c, rfl⟩
      · exact hys hback.isInfix
      · obtain ⟨before, rfl⟩ := hfront
        exact hmeet c (by simp) (by simp)
    · cases back with
      | nil =>
        rw [List.append_nil] at hxs
        exact hxs hfront.isInfix
      | cons c back =>
        obtain ⟨behind, rfl⟩ := hback
        exact hmeet c (by simp) (by simp)

/-- A text without the sign of headers has none, not even one that ends in the text behind. -/
theorem sections_append {b rest : List Char} (hb : ¬ sign <:+: b)
    (hrest : ∀ c ∈ rest.head?, c = '<') :
    sections (b ++ rest) = (b ++ (sections rest).1, (sections rest).2) := by
  induction b with
  | nil => rfl
  | cons c b ih =>
    have hnone : header? (c :: (b ++ rest)) = none := by
      cases hfound : header? (c :: (b ++ rest)) with
      | none => rfl
      | some found =>
        obtain ⟨inner, hinner, hsign, hcs⟩ := exists_of_header? hfound
        obtain ⟨as, rfl, hbehind⟩ | ⟨bs, rfl, -⟩ :=
          List.append_eq_append_iff.1 (List.cons.inj hcs).2
        · cases as with
          | nil =>
            rw [List.append_nil] at hsign
            exact absurd (hsign.isInfix.trans (List.suffix_cons c b).isInfix) hb
          | cons a as =>
            obtain rfl := hrest a (by rw [hbehind]; rfl)
            exact absurd (by simp) hinner
        · exact absurd (hsign.isInfix.trans
            ((List.prefix_append inner bs).isInfix.trans (List.suffix_cons c _).isInfix)) hb
    have htail := ih fun h => hb (h.trans (List.suffix_cons c b).isInfix)
    rw [List.cons_append, sections]
    split
    · next h => simp [hnone] at h
    · rw [htail]
      rfl

theorem sections_header {gap : List Char} (name : Name) (hgap : Blank gap) (rest : List Char) :
    sections (header name gap ++ rest) =
      ([], (name.text.toList, (sections rest).1) :: (sections rest).2) := by
  have hfound := header?_header name hgap rest
  rw [header, List.cons_append] at hfound ⊢
  generalize name.text.toList ++ '>' :: (gap ++ sign) ++ rest = cs at hfound ⊢
  rw [sections]
  split
  · next found tail h =>
    obtain ⟨rfl, rfl⟩ := Prod.mk.inj (Option.some.inj (hfound.symm.trans h))
    rfl
  · next h => simp [hfound] at h

theorem Blank.not_sign {gap : List Char} (h : Blank gap) : ¬ sign <:+: gap := by
  intro hsign
  have hcolon : ':' ∈ gap := hsign.subset (by simp [sign])
  exact absurd (h ':' hcolon) (by decide)

theorem not_sign_blank_append {gap cs : List Char} (hgap : Blank gap) (hcs : ¬ sign <:+: cs) :
    ¬ sign <:+: gap ++ cs := by
  refine not_infix_append (Blank.not_sign hgap) hcs (.inl fun c hc hsign => ?_)
  have hblank := hgap c (List.mem_of_getLast? hc)
  rw [not_isBlank_of_mem_sign c hsign] at hblank
  exact Bool.false_ne_true hblank

/-- Blanks may go on what stands behind a token. -/
theorem stop_append {rest gap : List Char} (hgap : Blank gap)
    (hstop : ∀ c ∈ rest.head?, isBlank c = true ∨ c = '|') :
    ∀ c ∈ (rest ++ gap).head?, isBlank c = true ∨ c = '|' := by
  cases rest with
  | nil => exact fun c hc => .inl (hgap c (List.mem_of_head? hc))
  | cons d rest => exact hstop

/-- Alternatives, with blanks behind them, have no sign of headers. -/
theorem Spaced.not_sign {first : List Word} {later : List (List Word)} {body gap : List Char}
    (h : Spaced first later body) (hgap : Blank gap) : ¬ sign <:+: body ++ gap := by
  induction h with
  | nil => exact Blank.not_sign hgap
  | @word lead rest ws later w hlead hstop tail ih =>
    rw [List.append_assoc, List.append_assoc]
    refine not_sign_blank_append hlead (not_infix_append w.not_sign ih (.inr fun c hc hsign => ?_))
    rcases stop_append hgap hstop c hc with hblank | rfl
    · rw [not_isBlank_of_mem_sign c hsign] at hblank
      exact Bool.false_ne_true hblank
    · exact absurd hsign (by decide)
  | @bar lead rest ws later hlead tail ih =>
    rw [List.append_assoc, List.cons_append]
    refine not_sign_blank_append hlead (@not_infix_append sign ['|'] _ ?_ ih (.inl ?_))
    · decide
    · simp [sign]

/-! ## Alternatives -/

theorem words_blank_append {gap : List Char} (h : Blank gap) (cs : List Char) :
    words (gap ++ cs) = words cs := by
  induction gap with
  | nil => rfl
  | cons c gap ih =>
    rw [← ih h.tail, words, words, List.cons_append, split, splitFirst_cons_of_isSep h.head]
    rfl

theorem words_append {w cs : List Char} (hne : w ≠ []) (hw : ∀ c ∈ w, isBlank c = false)
    (hcs : ∀ c ∈ cs.head?, isBlank c = true) : words (w ++ cs) = w :: words cs := by
  rw [words, words, split, split, splitFirst_append hw]
  have hkeep : (!w.isEmpty) = true := by simpa using hne
  cases cs with
  | nil => simp [splitFirst, hkeep]
  | cons c cs => simp [splitFirst_cons_of_isSep (hcs c rfl), hkeep]

/-- The pieces of a body between its bars, as words, are its alternatives. -/
theorem Spaced.words_splitFirst {first : List Word} {later : List (List Word)}
    {body gap : List Char} (h : Spaced first later body) (hgap : Blank gap) :
    words (splitFirst (· == '|') (body ++ gap)).1 = first.map (fun w => w.text.toList) ∧
      (splitFirst (· == '|') (body ++ gap)).2.map words =
        later.map (·.map fun w => w.text.toList) := by
  have hbar : ∀ {cs : List Char}, Blank cs → ∀ c ∈ cs, (c == '|') = false := by
    intro cs hcs c hc
    rw [beq_eq_false_iff_ne]
    rintro rfl
    exact absurd (hcs _ hc) (by decide)
  induction h with
  | nil =>
    have hsplit := splitFirst_append (hbar hgap) []
    have hwords := words_blank_append hgap []
    rw [List.append_nil] at hsplit hwords
    rw [List.nil_append, hsplit]
    exact ⟨by rw [splitFirst, List.append_nil, hwords]; rfl, rfl⟩
  | @word lead rest ws later w hlead hstop tail ih =>
    have hw : ∀ c ∈ w.text.toList, (c == '|') = false := by
      intro c hc
      rw [beq_eq_false_iff_ne]
      exact (w.isInner c hc).2
    have hhead : ∀ c ∈ (splitFirst (· == '|') (rest ++ gap)).1.head?, isBlank c = true := by
      intro c hc
      obtain ⟨hc, hbar⟩ := head?_splitFirst c hc
      exact (stop_append hgap hstop c hc).resolve_right (by simpa using hbar)
    rw [List.append_assoc, List.append_assoc, splitFirst_append (hbar hlead),
      splitFirst_append hw]
    dsimp only
    rw [words_blank_append hlead, words_append w.ne_nil (fun c hc => (w.isInner c hc).1) hhead,
      ih.1, ih.2]
    exact ⟨rfl, rfl⟩
  | @bar lead rest ws later hlead tail ih =>
    have hwords := words_blank_append hlead []
    rw [List.append_nil] at hwords
    rw [List.append_assoc, List.cons_append, splitFirst_append (hbar hlead),
      splitFirst_cons_of_isSep (by simp), List.append_nil, hwords, List.map_cons, ih.1, ih.2]
    exact ⟨rfl, rfl⟩

theorem alternatives_spaced {first : List Word} {later : List (List Word)}
    {body gap : List Char} (h : Spaced first later body) (hgap : Blank gap) :
    alternatives (body ++ gap) =
      ((first :: later).filter (!·.isEmpty)).map (·.map Word.text) := by
  obtain ⟨hfirst, hlater⟩ := h.words_splitFirst hgap
  have hwords : (split (· == '|') (body ++ gap)).map words =
      (first :: later).map (·.map fun w => w.text.toList) := by
    rw [split, List.map_cons, List.map_cons, hfirst, hlater]
  have hmap : (split (· == '|') (body ++ gap)).map (fun a => (words a).map String.ofList) =
      (first :: later).map (·.map Word.text) := by
    have := congrArg (List.map (List.map String.ofList)) hwords
    simpa only [List.map_map, Function.comp_def, String.ofList_toList] using this
  rw [alternatives, hmap, List.filter_map]
  simp only [Function.comp_def, List.isEmpty_map]

/-! ## Texts of definitions -/

/-- Whether a section of a text is that of a definition. -/
def Holds (d : Definition) (found : List Char × List Char) : Prop :=
  found.1 = d.name.text.toList ∧
    alternatives found.2 = (d.alternatives.filter (!·.isEmpty)).map (·.map Word.text)

/-- Each definition has its section, and there are no others. -/
theorem Written.exists_sections {ds : List Definition} {cs : List Char} (h : Written ds cs) :
    ∀ {first later body}, Spaced first later body → ∃ gap, Blank gap ∧
      (sections (body ++ cs)).1 = body ++ gap ∧
      List.Forall₂ Holds ds (sections (body ++ cs)).2 := by
  induction h with
  | @nil gap hgap =>
    intro first later body hbody
    have hnone := @sections_append _ [] (hbody.not_sign hgap) (by simp)
    rw [List.append_nil, sections] at hnone
    rw [hnone]
    exact ⟨gap, hgap, List.append_nil _, .nil⟩
  | @cons d ds lead gap next rest first' later' hlead hgap hnext halternatives tail ih =>
    intro first later body hbody
    obtain ⟨gap', hgap', hnextText, hrest⟩ := ih hnext
    rw [← List.append_assoc, sections_append (hbody.not_sign hlead) (by simp [header]),
      sections_header d.name hgap, List.append_nil]
    refine ⟨lead, hlead, rfl, .cons ⟨rfl, ?_⟩ hrest⟩
    rw [hnextText, alternatives_spaced hnext hgap', halternatives]

/-! ## Building -/

theorem extend_of_ne {symbol : String} {tokens : List Word} (h : tokens.isEmpty = false)
    (g : Grammar) : extend symbol g tokens = g.push symbol (tokens.map Word.text) := by
  rw [extend, add, List.isEmpty_map, h]
  rfl

theorem extend_of_empty {symbol : String} {tokens : List Word} (h : tokens.isEmpty = true)
    (g : Grammar) : extend symbol g tokens = g := by
  rw [extend, add, List.isEmpty_map, h]
  rfl

theorem Definition.isEmpty_tokens (d : Definition) :
    ((d.alternatives.filter (!·.isEmpty)).map (·.map Word.text)).isEmpty = !d.hasTokens := by
  rw [List.isEmpty_map, Definition.hasTokens, Bool.eq_iff_iff]
  simp

/-- Reading gives a symbol the alternatives that have tokens. -/
theorem define_eq_apply (g : Grammar) (d : Definition) :
    g.define d.name.text ((d.alternatives.filter (!·.isEmpty)).map (·.map Word.text)) =
      apply g d := by
  have hstep : (fun g tokens => extend d.name.text g tokens) = fun g (tokens : List Word) =>
      if (!tokens.isEmpty) = true then g.push d.name.text (tokens.map Word.text) else g := by
    funext g tokens
    cases h : tokens.isEmpty with
    | true => exact extend_of_empty h g
    | false => exact extend_of_ne h g
  rw [define, d.isEmpty_tokens, apply]
  cases d.hasTokens with
  | false => rfl
  | true =>
    show List.foldl _ _ _ = List.foldl (fun g tokens => extend d.name.text g tokens) _ _
    rw [List.foldl_map, List.foldl_filter, hstep]

/-- The first definition that has tokens says where expansions start. -/
theorem start_foldl_apply (ds : List Definition) (g : Grammar) :
    (ds.foldl apply g).start =
      g.start.or ((ds.find? Definition.hasTokens).map (·.name.text)) := by
  induction ds generalizing g with
  | nil => exact (Option.or_none).symm
  | cons d ds ih =>
    have hempty := d.isEmpty_tokens
    rw [List.foldl_cons, ih, ← define_eq_apply, start_define]
    cases h : d.hasTokens with
    | true =>
      rw [h, Bool.not_true, List.isEmpty_eq_false_iff] at hempty
      rw [if_neg hempty, Option.or_assoc, Option.some_or, List.find?_cons_of_pos h,
        Option.map_some]
    | false =>
      rw [h, Bool.not_false, List.isEmpty_iff] at hempty
      rw [if_pos hempty, Option.or_none, List.find?_cons_of_neg (by simp [h])]

/-! ## Reading -/

/-- Sections build what their definitions build. -/
theorem foldl_define_eq {ds : List Definition} {founds : List (List Char × List Char)}
    (h : List.Forall₂ Holds ds founds) (g : Grammar) :
    founds.foldl (fun g (name, body) => g.define (String.ofList name) (alternatives body)) g =
      ds.foldl apply g := by
  induction h generalizing g with
  | nil => rfl
  | @cons d found ds founds hd _ ih =>
    obtain ⟨name, body⟩ := found
    obtain ⟨hname, halternatives⟩ := hd
    dsimp only at hname halternatives
    rw [List.foldl_cons, List.foldl_cons, ← define_eq_apply, ← halternatives]
    dsimp only
    rw [hname, String.ofList_toList]
    exact ih _

/-- Reading a text of definitions, whatever its layout and its comments, is building the grammar
of the definitions one after another. -/
theorem ofText_written {ds : List Definition} {text : String}
    (h : Written ds (uncommented text.toList)) :
    ofText text = ofDefinitions ds ∧
      (ofText text).start = (ds.find? Definition.hasTokens).map (·.name.text) := by
  have hflat : Written ds (flatten text.toList) := by
    obtain heq | ⟨hflatten, hnone⟩ := flatten_eq text.toList
    · rw [heq]
      exact h.joined
    · rwa [hflatten, ← hnone]
  obtain ⟨-, -, -, hsections⟩ := hflat.exists_sections .nil
  have hread : ofText text = ofDefinitions ds := foldl_define_eq hsections empty
  rw [hread]
  exact ⟨rfl, start_foldl_apply ds empty⟩

/-! ## A name that is defined twice -/

def letter : Word := ⟨"x", by decide, by simp; decide, by decide⟩

def reference : Word := ⟨"<b>", by decide, by simp; decide, by decide⟩

/-- Two definitions of one name, and one without alternatives. -/
def repeatedName : List Definition :=
  let a : Name := ⟨"a", by decide, by simp; decide⟩
  let c : Name := ⟨"c", by decide, by simp; decide⟩
  [⟨a, [[letter]]⟩, ⟨a, [[reference, letter], [reference]]⟩, ⟨c, []⟩]

/-- Comments before and inside a definition, empty alternatives, and a header right behind a
reference. -/
def repeatedNameText : String :=
  "# words\n<a>::= x |\n\t# a note\n\n<a> \u00a0::=\n <b>\n x|<b><c>::= |"

theorem ofText_repeatedName :
    Written repeatedName (uncommented repeatedNameText.toList) ∧
      ofText repeatedNameText = ofDefinitions repeatedName ∧
      (ofText repeatedNameText).start = some "a" := by
  have hblank : ∀ gap : List Char, gap.all isBlank = true → Blank gap :=
    fun _ => List.all_eq_true.1
  have hfirst : Spaced [letter] [[]] _ :=
    .word letter (hblank [' '] rfl) (by simp; decide) (.bar (hblank [' '] rfl) .nil)
  have hsecond : Spaced [reference, letter] [[reference]] _ :=
    .word reference (hblank ['\n', ' '] rfl) (by simp; decide) <|
      .word letter (hblank ['\n', ' '] rfl) (by simp) <|
      .bar (hblank [] rfl) (.word reference (hblank [] rfl) (by simp) .nil)
  have hthird : Spaced [] [[]] _ := .bar (hblank [' '] rfl) .nil
  obtain ⟨cs, hcs, hwritten⟩ : ∃ cs, uncommented repeatedNameText.toList = cs ∧
      Written repeatedName cs :=
    ⟨_, by rfl,
      .cons (hblank [] rfl) (hblank [] rfl) hfirst rfl <|
      .cons (hblank ['\n', '\n'] rfl) (hblank [' ', '\u00a0'] rfl) hsecond rfl <|
      .cons (hblank [] rfl) (hblank [] rfl) hthird rfl (.nil (hblank [] rfl))⟩
  rw [← hcs] at hwritten
  exact ⟨hwritten, ofText_written hwritten⟩

end NeuralArch.Grammar
