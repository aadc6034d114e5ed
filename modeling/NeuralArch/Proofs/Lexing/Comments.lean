import NeuralArch.Proofs.Lexing.Cut

/-!
# Tokens without comments

Comments and blanks separate tokens and do nothing else. So the tokens of a
text, apart from their places, are a matter of its words: take the comments
out, let the blanks that are left cut the rest into words, and cut each word
by longest match. Where blanks other than the five separators are left, there
are no tokens at all.

The lexer is read in both directions on the text that is still ahead. What is
ahead begins inside a word once a token has been taken, so the words ahead are
carried with the rest of the word in front.

* `code` — a text without its comments.
* `exists_code_eq_append` — what the lexer passes over leaves nothing but
  separators.
* `Cuts` — the tokens that words are cut into, one lexeme after another.
* `exists_ofTextAt_iff` — the tokens of a text are those of the words of its
  code.
-/

namespace NeuralArch.Lexing

open Token Text

/-! ## Code -/

/-- A text without its comments. The line feed that ends a comment stays. -/
def code (inComment : Bool) : List Char → List Char
  | [] => []
  | c :: cs =>
    if inComment then if c = '\n' then '\n' :: code false cs else code true cs
    else if c = '#' then code true cs
    else c :: code false cs

@[simp] theorem code_nil (inComment : Bool) : code inComment [] = [] := rfl

theorem code_true_cons {c : Char} (h : c ≠ '\n') (cs : List Char) :
    code true (c :: cs) = code true cs := by
  rw [code, if_pos rfl, if_neg h]

/-- A line feed stays, inside a comment and outside. -/
@[simp] theorem code_feed (inComment : Bool) (cs : List Char) :
    code inComment ('\n' :: cs) = '\n' :: code false cs := by
  cases inComment <;> rfl

theorem code_false_cons {c : Char} (h : c ≠ '#') (cs : List Char) :
    code false (c :: cs) = c :: code false cs := by
  rw [code, if_neg Bool.false_ne_true, if_neg h]

@[simp] theorem code_false_hash (cs : List Char) : code false ('#' :: cs) = code true cs := rfl

/-- Behind a character that ends no line the text is in a comment, or the character stays. -/
theorem code_cons_cases {c : Char} (h : c ≠ '\n') (inComment : Bool) :
    (∀ cs, code inComment (c :: cs) = code true cs) ∨
      ∀ cs, code inComment (c :: cs) = c :: code false cs := by
  cases inComment with
  | true => exact .inl (code_true_cons h)
  | false =>
    by_cases hhash : c = '#'
    · subst hhash
      exact .inl code_false_hash
    · exact .inr (code_false_cons hhash)

/-- A character is dropped or stays, and decides with what went before whether the text is in a
comment behind it. -/
theorem exists_code_cons (c : Char) (inComment : Bool) :
    ∃ b, (∀ cs, code inComment (c :: cs) = code b cs) ∨
      ∀ cs, code inComment (c :: cs) = c :: code b cs := by
  by_cases hfeed : c = '\n'
  · subst hfeed
    exact ⟨false, .inr (code_feed inComment)⟩
  · obtain h | h := code_cons_cases hfeed inComment
    · exact ⟨true, .inl h⟩
    · exact ⟨false, .inr h⟩

/-- Behind a comment a line ends. -/
theorem head?_code_true (cs : List Char) : ∀ c ∈ (code true cs).head?, c = '\n' := by
  induction cs with
  | nil => simp
  | cons c cs ih =>
    by_cases hfeed : c = '\n'
    · subst hfeed
      simp
    · rwa [code_true_cons hfeed]

/-- Of two texts in a row, the first decides where the code of the second begins. -/
theorem exists_code_append (inComment : Bool) (cs ds : List Char) :
    ∃ b, code inComment (cs ++ ds) = code inComment cs ++ code b ds := by
  induction cs generalizing inComment with
  | nil => exact ⟨inComment, rfl⟩
  | cons c cs ih =>
    obtain ⟨b, hc⟩ := exists_code_cons c inComment
    obtain ⟨b', hb'⟩ := ih b
    refine ⟨b', ?_⟩
    rw [List.cons_append]
    obtain hc | hc := hc
    · rw [hc, hc, hb']
    · rw [hc, hc, hb', List.cons_append]

/-- A line feed ends a comment, so what follows it is read afresh. -/
theorem code_append_feed (inComment : Bool) (cs ds : List Char) :
    code inComment (cs ++ '\n' :: ds) = code inComment cs ++ '\n' :: code false ds := by
  obtain ⟨b, hb⟩ := exists_code_append inComment cs ('\n' :: ds)
  rw [hb, code_feed]

/-- Taking comments out adds nothing. -/
theorem mem_of_mem_code {inComment : Bool} {c : Char} {cs : List Char}
    (h : c ∈ code inComment cs) : c ∈ cs := by
  induction cs generalizing inComment with
  | nil => exact h
  | cons d cs ih =>
    obtain ⟨b, hd | hd⟩ := exists_code_cons d inComment
    · rw [hd] at h
      exact List.mem_cons_of_mem _ (ih h)
    · rw [hd] at h
      rcases List.mem_cons.1 h with rfl | h
      · exact List.mem_cons_self ..
      · exact List.mem_cons_of_mem _ (ih h)

theorem code_append_of_not_hash {w : List Char} (h : ∀ c ∈ w, c ≠ '#') (cs : List Char) :
    code false (w ++ cs) = w ++ code false cs := by
  induction w with
  | nil => rfl
  | cons c w ih =>
    rw [List.forall_mem_cons] at h
    rw [List.cons_append, code_false_cons h.1, ih h.2, List.cons_append]

/-- What stands in front of the code of a text, and holds no line feed, stands in front of the
text. -/
theorem exists_eq_append_of_code {w rest cs : List Char} (h : code false cs = w ++ rest)
    (hw : ∀ c ∈ w, c ≠ '\n') : ∃ tail, cs = w ++ tail ∧ code false tail = rest := by
  induction w generalizing cs with
  | nil => exact ⟨cs, rfl, h⟩
  | cons c w ih =>
    rw [List.forall_mem_cons] at hw
    match cs with
    | [] => simp at h
    | d :: cs =>
      have hhash : d ≠ '#' := by
        rintro rfl
        rw [code_false_hash] at h
        exact hw.1 (head?_code_true cs c (by rw [h]; rfl))
      rw [code_false_cons hhash, List.cons_append, List.cons.injEq] at h
      obtain ⟨rfl, h⟩ := h
      obtain ⟨tail, rfl, htail⟩ := ih h hw.2
      exact ⟨tail, rfl, htail⟩

/-! ## Gaps -/

/-- What the lexer passes over leaves nothing but separators. -/
theorem exists_code_eq_append (inComment : Bool) (cs : List Char) :
    ∃ blanks, code inComment cs = blanks ++ code false (cs.drop (gap inComment cs)) ∧
      ∀ c ∈ blanks, isSeparator c = true := by
  induction cs generalizing inComment with
  | nil => exact ⟨[], rfl, by simp⟩
  | cons c cs ih =>
    cases inComment with
    | true =>
      rw [gap, if_pos rfl, List.drop_succ_cons]
      by_cases hfeed : c = '\n'
      · subst hfeed
        obtain ⟨blanks, hcode, hblanks⟩ := ih false
        refine ⟨'\n' :: blanks, ?_, List.forall_mem_cons.2 ⟨by decide, hblanks⟩⟩
        rw [code_feed, hcode, List.cons_append]
        rfl
      · have hne : (c != '\n') = true := bne_iff_ne.2 hfeed
        rw [code_true_cons hfeed, hne]
        exact ih true
    | false =>
      rw [gap, if_neg Bool.false_ne_true]
      by_cases hseparator : isSeparator c = true
      · have hhash : c ≠ '#' := by
          rintro rfl
          exact absurd hseparator (by decide)
        obtain ⟨blanks, hcode, hblanks⟩ := ih false
        refine ⟨c :: blanks, ?_, List.forall_mem_cons.2 ⟨hseparator, hblanks⟩⟩
        rw [if_pos hseparator, List.drop_succ_cons, code_false_cons hhash, hcode,
          List.cons_append]
      · rw [if_neg hseparator]
        by_cases hhash : c = '#'
        · subst hhash
          rw [if_pos (beq_self_eq_true _), List.drop_succ_cons, code_false_hash]
          exact ih true
        · rw [if_neg (by rwa [beq_iff_eq]), List.drop_zero]
          exact ⟨[], rfl, by simp⟩

/-- Behind a gap no gap begins. -/
theorem not_isStop_of_drop_gap {cs rest : List Char} {c : Char}
    (h : cs.drop (gap false cs) = c :: rest) : ¬ IsStop c := by
  obtain ⟨g, -, hstop⟩ | ⟨-, hnil⟩ := exists_take_gap cs
  · exact hstop c (by rw [h]; rfl)
  · exact absurd (h.symm.trans hnil) (List.cons_ne_nil c rest)

theorem scan_code_drop_gap (cs : List Char) :
    scan (code false (cs.drop (gap false cs))) = scan (code false cs) := by
  obtain ⟨blanks, hcode, hblanks⟩ := exists_code_eq_append false cs
  rw [hcode, scan_blanks_append fun c hc => isBlank_of_isSeparator (hblanks c hc)]

/-! ## Cutting words -/

/-- Words cut into lexemes, each the longest that fits in what is left of its word. -/
inductive Cuts : List (List Char) → List (Kind × String) → Prop
  | nil : Cuts [] []
  /-- A word is used up. -/
  | used {words : List (List Char)} {found : List (Kind × String)} (rest : Cuts words found) :
      Cuts ([] :: words) found
  | lexeme {k : Kind} {v w : List Char} {words : List (List Char)}
      {found : List (Kind × String)} (hlexeme : IsLexeme k v w) (rest : Cuts (w :: words) found) :
      Cuts ((v ++ w) :: words) ((k, String.ofList v) :: found)

/-- Whether the blanks of some text separate tokens. -/
def Separated (cs : List Char) : Prop := ∀ c ∈ cs, isBlank c = true → isSeparator c = true

theorem cuts_nil_iff {found : List (Kind × String)} : Cuts [] found ↔ found = [] := by
  constructor
  · rintro ⟨⟩
    rfl
  · rintro rfl
    exact .nil

theorem cuts_used_iff {words : List (List Char)} {found : List (Kind × String)} :
    Cuts ([] :: words) found ↔ Cuts words found := by
  refine ⟨fun h => ?_, .used⟩
  generalize hwords : [] :: words = all at h
  cases h with
  | nil => simp at hwords
  | used rest => exact (List.cons.inj hwords).2 ▸ rest
  | lexeme hlexeme rest =>
    have hnil := (List.cons.inj hwords).1.symm
    exact absurd (List.append_eq_nil_iff.1 hnil).1 (ne_nil_of_mem_pattern hlexeme.fits)

/-- The first lexeme of a word. -/
theorem exists_of_cuts_cons {w : List Char} (hw : w ≠ []) {words : List (List Char)}
    {found : List (Kind × String)} (h : Cuts (w :: words) found) :
    ∃ k v left more, w = v ++ left ∧ found = (k, String.ofList v) :: more ∧ IsLexeme k v left ∧
      Cuts (left :: words) more := by
  cases h with
  | used rest => exact absurd rfl hw
  | lexeme hlexeme rest => exact ⟨_, _, _, _, rfl, rfl, hlexeme, rest⟩

/-! ## The word in front -/

/-- The word that a text begins with: a mark, or characters that stand inside words and are
followed by none. -/
structure InFront (w rest : List Char) : Prop where
  isWord : IsWord w
  ends : (∃ c, isMark c = true ∧ w = [c]) ∨ startsInner rest = false

theorem exists_inFront {c : Char} (hc : isBlank c = false) (cs : List Char) :
    ∃ w rest, c :: cs = w ++ rest ∧ scan (c :: cs) = w :: scan rest ∧ InFront w rest := by
  obtain ⟨w, rest, hcs, hscan, ⟨hmark, hw⟩ | ⟨hne, hinner, hrest⟩⟩ := exists_scan_cons hc cs
  · exact ⟨w, rest, hcs, hscan, .inl ⟨c, hmark, hw⟩, .inl ⟨c, hmark, hw⟩⟩
  · exact ⟨w, rest, hcs, hscan, .inr ⟨hne, hinner⟩, .inr hrest⟩

namespace InFront

variable {w rest v : List Char}

/-- A word that a text begins with is part of the word in front. -/
theorem prefix_of_isWord (h : InFront w rest) (hv : IsWord v) (hbegins : v <+: w ++ rest) :
    v <+: w := by
  rcases List.prefix_or_prefix_of_prefix hbegins (List.prefix_append w rest) with hvw | hwv
  · exact hvw
  · obtain ⟨tail, rfl⟩ := hwv
    match tail with
    | [] => rw [List.append_nil]
    | d :: tail =>
      -- The word would go on behind the word in front.
      exfalso
      have hrest : startsInner rest = isInner d := by
        obtain ⟨more, hmore⟩ := hbegins
        rw [List.append_assoc, List.append_cancel_left_eq] at hmore
        rw [← hmore, List.cons_append, startsInner_cons]
      rcases hv with ⟨c, -, hc⟩ | ⟨-, hinner⟩
      · have hlength := congrArg List.length hc
        have hpos := List.length_pos_iff.2 h.isWord.ne_nil
        rw [List.length_append, List.length_cons, List.length_singleton] at hlength
        omega
      · rcases h.ends with ⟨c, hc, rfl⟩ | hends
        · have hin := hinner c (by simp)
          rw [isInner_of_isMark hc] at hin
          exact Bool.false_ne_true hin
        · rw [hrest, hinner d (by simp)] at hends
          exact Bool.false_ne_true hends.symm

/-- Behind the first lexeme of the word in front, the rest of that word is in front. -/
theorem cuts_left_iff {left : List Char} (h : InFront (v ++ left) rest) (hv : v ≠ [])
    {found : List (Kind × String)} :
    Cuts (scan (left ++ rest)) found ↔ Cuts (left :: scan rest) found := by
  match left with
  | [] => rw [List.nil_append, cuts_used_iff]
  | d :: left =>
    have hlong : ¬ ∃ c, isMark c = true ∧ v ++ d :: left = [c] := by
      rintro ⟨c, -, hc⟩
      have hlength := congrArg List.length hc
      have hpos := List.length_pos_iff.2 hv
      rw [List.length_append, List.length_cons, List.length_singleton] at hlength
      omega
    have hinner : ∀ c ∈ d :: left, isInner c = true := by
      obtain ⟨-, hinner⟩ := h.isWord.resolve_left hlong
      exact fun c hc => hinner c (List.mem_append_right _ hc)
    rw [scan_append (h.ends.resolve_left hlong), scan_inner (List.cons_ne_nil d left) hinner,
      List.singleton_append]

end InFront

/-! ## The lexeme in front -/

/-- A text of a kind stands in front of a text if it stands in front of its code. -/
theorem prefix_code_iff {k : Kind} {v : List Char} (h : v ∈ pattern k) {cs : List Char} :
    v <+: code false cs ↔ v <+: cs := by
  constructor
  · rintro ⟨rest, hrest⟩
    have hfeed : ∀ c ∈ v, c ≠ '\n' := by
      rintro c hc rfl
      exact not_isStop_of_mem_pattern h _ hc (.inl (by decide))
    obtain ⟨tail, rfl, -⟩ := exists_eq_append_of_code hrest.symm hfeed
    exact List.prefix_append v tail
  · rintro ⟨tail, rfl⟩
    rw [code_append_of_not_hash (ne_hash_of_mem_pattern h)]
    exact List.prefix_append v _

section

variable {cs w rest : List Char} (hcode : code false cs = w ++ rest) (hfront : InFront w rest)

include hcode hfront

/-- The lexer takes from the word in front, and what it takes is the lexeme of that word. -/
theorem exists_left_of_lexeme? {k : Kind} {n : Nat} (hl : lexeme? cs = some (k, n)) :
    ∃ left, w = cs.take n ++ left ∧ IsLexeme k (cs.take n) left ∧
      code false (cs.drop n) = left ++ rest := by
  have hlexeme := isLexeme_of_lexeme? hl
  have hsplit := code_append_of_not_hash (ne_hash_of_mem_pattern hlexeme.fits) (cs.drop n)
  rw [List.take_append_drop, hcode] at hsplit
  obtain ⟨left, rfl⟩ := hfront.prefix_of_isWord (isWord_of_mem_pattern hlexeme.fits)
    (hsplit ▸ List.prefix_append _ _)
  rw [List.append_assoc, List.append_cancel_left_eq] at hsplit
  refine ⟨left, rfl, ⟨hlexeme.fits, hlexeme.only, fun l v hv hbegins => ?_⟩, hsplit.symm⟩
  have hcs : v <+: cs := by
    rw [← prefix_code_iff hv, hcode]
    exact hbegins.trans (List.prefix_append _ rest)
  rw [← List.take_append_drop n cs] at hcs
  exact hlexeme.longest l v hv hcs

/-- The lexeme of the word in front is the lexeme that the lexer takes. -/
theorem exists_lexeme?_of_isLexeme {k : Kind} {v left : List Char} (hw : w = v ++ left)
    (hlexeme : IsLexeme k v left) :
    ∃ n, lexeme? cs = some (k, n) ∧ cs.take n = v ∧ code false (cs.drop n) = left ++ rest := by
  have hv : v <+: cs := by
    rw [← prefix_code_iff hlexeme.fits, hcode, hw, List.append_assoc]
    exact List.prefix_append v _
  obtain ⟨tail, rfl⟩ := hv
  have htail : code false tail = left ++ rest := by
    rw [code_append_of_not_hash (ne_hash_of_mem_pattern hlexeme.fits), hw, List.append_assoc,
      List.append_cancel_left_eq] at hcode
    exact hcode
  have hlongest : ∀ c more n, tail.take n = c :: more → ∀ l, v ++ c :: more ∉ pattern l := by
    intro c more n htake l hmem
    have hlonger : v ++ c :: more <+: w := by
      apply hfront.prefix_of_isWord (isWord_of_mem_pattern hmem)
      rw [← hcode, prefix_code_iff hmem, ← htake]
      exact (List.prefix_append_right_inj v).2 (List.take_prefix n tail)
    have hlength := hlexeme.longest l _ hmem (hw ▸ hlonger)
    rw [List.length_append, List.length_cons] at hlength
    omega
  obtain ⟨n, hl, htake, hdrop⟩ := exists_lexeme?_of_longest hlexeme.fits hlongest
  exact ⟨n, hl, htake, by rw [hdrop, htail]⟩

end

theorem exists_inFront_code {c : Char} (hblank : isBlank c = false) (hhash : c ≠ '#')
    (cs : List Char) :
    ∃ w rest, code false (c :: cs) = w ++ rest ∧
      scan (code false (c :: cs)) = w :: scan rest ∧ InFront w rest := by
  rw [code_false_cons hhash]
  exact exists_inFront hblank (code false cs)

/-- Where the lexer finds no lexeme, the words cannot be cut. -/
theorem not_cuts_of_lexeme? {c : Char} (hblank : isBlank c = false) (hhash : c ≠ '#')
    {cs : List Char} (hl : lexeme? (c :: cs) = none) {found : List (Kind × String)} :
    ¬ Cuts (scan (code false (c :: cs))) found := by
  obtain ⟨w, rest, hcode, hscan, hfront⟩ := exists_inFront_code hblank hhash cs
  rw [hscan]
  intro hcuts
  obtain ⟨k, v, left, more, hw, -, hlexeme, -⟩ := exists_of_cuts_cons hfront.isWord.ne_nil hcuts
  obtain ⟨n, hfound, -⟩ := exists_lexeme?_of_isLexeme hcode hfront hw hlexeme
  rw [hl] at hfound
  exact Option.some_ne_none _ hfound.symm

/-- Where the lexer finds a lexeme, the words are cut there. -/
theorem cuts_of_lexeme?_iff {cs : List Char} {k : Kind} {n : Nat} (hl : lexeme? cs = some (k, n))
    {found : List (Kind × String)} :
    Cuts (scan (code false cs)) found ↔
      ∃ more, found = (k, String.ofList (cs.take n)) :: more ∧
        Cuts (scan (code false (cs.drop n))) more := by
  have hfits := take_mem_pattern hl
  have hne := ne_nil_of_mem_pattern hfits
  match cs with
  | [] => exact absurd List.take_nil hne
  | c :: cs =>
    have hmem : c ∈ (c :: cs).take n := by
      cases n with
      | zero => exact absurd rfl hne
      | succ n => exact List.mem_cons_self ..
    obtain ⟨w, rest, hcode, hscan, hfront⟩ := exists_inFront_code
      ((isWord_of_mem_pattern hfits).not_isBlank c hmem) (ne_hash_of_mem_pattern hfits c hmem) cs
    obtain ⟨left, hw, hlexeme, hleft⟩ := exists_left_of_lexeme? hcode hfront hl
    have hcuts : ∀ {more}, Cuts (scan (code false ((c :: cs).drop n))) more ↔
        Cuts (left :: scan rest) more := by
      intro more
      rw [hleft]
      exact (hw ▸ hfront).cuts_left_iff hne
    simp only [hcuts]
    rw [hscan]
    constructor
    · intro h
      obtain ⟨l, v, left', more, hw', rfl, hlexeme', hmore⟩ :=
        exists_of_cuts_cons hfront.isWord.ne_nil h
      obtain ⟨m, hl', htake, -⟩ := exists_lexeme?_of_isLexeme hcode hfront hw' hlexeme'
      obtain ⟨rfl, rfl⟩ := Prod.mk.inj (Option.some.inj (hl.symm.trans hl'))
      subst htake
      rw [hw, List.append_cancel_left_eq] at hw'
      exact ⟨more, rfl, hw' ▸ hmore⟩
    · rintro ⟨more, rfl, hmore⟩
      rw [hw]
      exact .lexeme hlexeme hmore

/-! ## Whole texts -/

/-- Only what the lexer takes as lexemes is not blank in the code it has passed. -/
theorem separated_code_iff {cs : List Char} {k : Kind} {n : Nat}
    (hl : lexeme? (cs.drop (gap false cs)) = some (k, n)) :
    Separated (code false cs) ↔
      Separated (code false ((cs.drop (gap false cs)).drop n)) := by
  have hfits := take_mem_pattern hl
  obtain ⟨blanks, hcode, hblanks⟩ := exists_code_eq_append false cs
  have hsplit := code_append_of_not_hash (ne_hash_of_mem_pattern hfits)
    ((cs.drop (gap false cs)).drop n)
  rw [List.take_append_drop] at hsplit
  rw [hcode, hsplit, Separated, Separated, List.forall_mem_append, List.forall_mem_append]
  constructor
  · exact fun h => h.2.2
  · refine fun h => ⟨fun c hc _ => hblanks c hc, fun c hc hblank => ?_, h⟩
    rw [(isWord_of_mem_pattern hfits).not_isBlank c hc] at hblank
    exact absurd hblank Bool.false_ne_true

/-- The tokens of a text, without their places, are those that the words of its code are cut
into, provided that its blanks separate. -/
theorem exists_ofTextAt_iff (p : Position) (cs : List Char) (found : List (Kind × String)) :
    (∃ ts, ofTextAt p cs = .ok ts ∧ ts.map unplaced = found) ↔
      Separated (code false cs) ∧ Cuts (scan (code false cs)) found := by
  fun_induction ofTextAt p cs generalizing found with
  | case1 p cs before hr =>
    -- Nothing is left but the separators that were passed over.
    obtain ⟨blanks, hcode, hblanks⟩ := exists_code_eq_append false cs
    rw [hr, code_nil, List.append_nil] at hcode
    rw [← scan_code_drop_gap cs, hr, code_nil, scan_nil, cuts_nil_iff, hcode]
    constructor
    · rintro ⟨ts, hts, rfl⟩
      obtain rfl := Except.ok.inj hts
      exact ⟨fun c hc _ => hblanks c hc, rfl⟩
    · rintro ⟨-, rfl⟩
      exact ⟨[], rfl, rfl⟩
  | case2 p cs before here c rest hr hl =>
    constructor
    · rintro ⟨ts, hts, -⟩
      simp at hts
    · rintro ⟨hseparated, hcuts⟩
      have hstop := not_isStop_of_drop_gap hr
      rw [IsStop, not_or] at hstop
      have hmem : c ∈ code false cs := by
        obtain ⟨blanks, hcode, -⟩ := exists_code_eq_append false cs
        rw [hcode, hr, code_false_cons hstop.2]
        simp
      have hblank : isBlank c = false :=
        Bool.eq_false_iff.2 fun hblank => hstop.1 (hseparated c hmem hblank)
      rw [← scan_code_drop_gap cs, hr] at hcuts
      exact absurd hcuts (not_cuts_of_lexeme? hblank hstop.2 hl)
  | case3 p cs before here c rest hr kind n hl written _ e he ih =>
    rw [← scan_code_drop_gap cs, hr, cuts_of_lexeme?_iff hl, separated_code_iff (hr ▸ hl), hr]
    constructor
    · rintro ⟨ts, hts, -⟩
      simp at hts
    · rintro ⟨hseparated, more, rfl, hmore⟩
      obtain ⟨ts, hts, -⟩ := (ih more).2 ⟨hseparated, hmore⟩
      rw [he] at hts
      simp at hts
  | case4 p cs before here c rest hr kind n hl written _ tokens htokens ih =>
    rw [← scan_code_drop_gap cs, hr, cuts_of_lexeme?_iff hl, separated_code_iff (hr ▸ hl), hr]
    constructor
    · rintro ⟨ts, hts, rfl⟩
      obtain rfl := Except.ok.inj hts
      obtain ⟨hseparated, hmore⟩ := (ih _).1 ⟨tokens, htokens, rfl⟩
      exact ⟨hseparated, _, rfl, hmore⟩
    · rintro ⟨hseparated, more, rfl, hmore⟩
      obtain ⟨ts, hts, rfl⟩ := (ih more).2 ⟨hseparated, hmore⟩
      obtain rfl := Except.ok.inj (htokens.symm.trans hts)
      exact ⟨_, rfl, rfl⟩

end NeuralArch.Lexing
