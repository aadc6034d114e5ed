import NeuralArch.Proofs.Lexing.Longest

/-!
# Words with gaps between them

A layout spreads words over a text, with blanks and comments between them.
Whatever the layout, the tokens of the text are the words, each at the place
where the layout puts it: a word that fits a kind ends where a gap begins, since
no text of a kind holds a separator or the mark of a comment.

* `Gap`, `Spaced`, `Layout` — the ways to write words side by side.
* `gap_chars_append` — the lexer passes over a gap, whole.
* `ofTextAt_word` — it takes the word behind the gap, and no more.
* `exists_ofText_layout` — the tokens are the words at their places.
-/

namespace NeuralArch.Lexing

open Token

/-! ## Layouts -/

/-- The characters that may separate words. -/
def separators : List Char := [' ', '\t', '\r', '\n', '\x0c']

/-- What may stand between two words. A comment has the line feed that closes it. -/
inductive Filler
  | separator (c : Char) (hc : c ∈ separators)
  | comment (text : List Char) (htext : '\n' ∉ text)

def Filler.chars : Filler → List Char
  | separator c _ => [c]
  | comment text _ => '#' :: (text ++ ['\n'])

/-- What stands between two words. -/
abbrev Gap := List Filler

def Gap.chars (g : Gap) : List Char := g.flatMap Filler.chars

/-- Words in order, each with the gap behind it, which is missing at most behind the last. -/
inductive Spaced : List String → Type
  | last (word : String) (gap : Gap) : Spaced [word]
  | cons (word : String) (gap : Gap) (hgap : gap ≠ []) {words : List String}
      (rest : Spaced words) : Spaced (word :: words)

def Spaced.chars : {words : List String} → Spaced words → List Char
  | _, last word gap => word.toList ++ gap.chars
  | _, cons word gap _ rest => word.toList ++ (gap.chars ++ rest.chars)

/-- The words with the places where they begin, if the first begins at `p`. -/
def Spaced.placed (p : Position) : {words : List String} → Spaced words → List (String × Position)
  | _, last word _ => [(word, p)]
  | _, cons word gap _ rest => (word, p) :: rest.placed ((p.after word.toList).after gap.chars)

/-- A way to write words, perhaps behind a gap. -/
structure Layout (words : List String) where
  lead : Gap
  body : Spaced words

namespace Layout

variable {words : List String}

def text (l : Layout words) : String := String.ofList (l.lead.chars ++ l.body.chars)

/-- The words with the places where they begin. -/
def placed (l : Layout words) : List (String × Position) :=
  l.body.placed (Position.start.after l.lead.chars)

end Layout

theorem Spaced.map_fst_placed {words : List String} (b : Spaced words) (p : Position) :
    (b.placed p).map Prod.fst = words := by
  induction b generalizing p with
  | last word gap => rfl
  | cons word gap hgap rest ih => rw [Spaced.placed, List.map_cons, ih]

theorem Layout.map_fst_placed {words : List String} (l : Layout words) :
    l.placed.map Prod.fst = words :=
  l.body.map_fst_placed _

/-! ## Gaps are passed over -/

theorem isSeparator_of_mem_separators {c : Char} (h : c ∈ separators) : isSeparator c = true := by
  have htable : separators.all isSeparator = true := by decide
  exact List.all_eq_true.1 htable c h

/-- A comment is passed over to the end of its line. -/
theorem gap_comment {text : List Char} (h : '\n' ∉ text) (cs : List Char) :
    gap true (text ++ '\n' :: cs) = text.length + 1 + gap false cs := by
  induction text with
  | nil =>
    show gap true ('\n' :: cs) = [].length + 1 + gap false cs
    rw [gap, if_pos rfl, List.length_nil]
    simp only [bne_self_eq_false]
    omega
  | cons c text ih =>
    rw [List.mem_cons, not_or] at h
    have hc : (c != '\n') = true := by
      rw [bne_iff_ne]
      exact fun heq => h.1 heq.symm
    rw [List.cons_append, gap, if_pos rfl, hc, ih h.2, List.length_cons]
    omega

theorem gap_filler_append (f : Filler) (cs : List Char) :
    gap false (f.chars ++ cs) = f.chars.length + gap false cs := by
  cases f with
  | separator c hc =>
    show gap false (c :: cs) = 1 + gap false cs
    rw [gap, if_neg Bool.false_ne_true, if_pos (isSeparator_of_mem_separators hc)]
    omega
  | comment text htext =>
    have hrest := gap_comment htext cs
    rw [Filler.chars, List.cons_append, List.append_assoc, List.singleton_append, gap,
      if_neg Bool.false_ne_true, if_neg (by decide), if_pos (by decide), hrest]
    simp only [List.length_cons, List.length_append, List.length_nil]
    omega

theorem gap_chars_append (g : Gap) (cs : List Char) :
    gap false (g.chars ++ cs) = g.chars.length + gap false cs := by
  induction g with
  | nil =>
    show gap false cs = 0 + gap false cs
    rw [Nat.zero_add]
  | cons f g ih =>
    have hchars : Gap.chars (f :: g) = f.chars ++ Gap.chars g := List.flatMap_cons
    rw [hchars, List.append_assoc, gap_filler_append, ih, List.length_append]
    omega

/-! ## Words are taken -/

/-- Whether a character may stand right behind a word. -/
def IsStop (c : Char) : Prop := isSeparator c = true ∨ c = '#'

theorem isStop_head_filler (f : Filler) : ∃ c cs, f.chars = c :: cs ∧ IsStop c := by
  cases f with
  | separator c hc => exact ⟨c, [], rfl, .inl (isSeparator_of_mem_separators hc)⟩
  | comment text _ => exact ⟨'#', text ++ ['\n'], rfl, .inr rfl⟩

theorem isStop_head_gap {g : Gap} {cs : List Char} (hg : g ≠ [] ∨ cs = []) :
    ∀ c ∈ (g.chars ++ cs).head?, IsStop c := by
  match g with
  | [] =>
    obtain rfl := hg.resolve_left (fun hne => hne rfl)
    intro c hc
    simp [Gap.chars] at hc
  | f :: g =>
    obtain ⟨d, ds, hd, hstop⟩ := isStop_head_filler f
    intro c hc
    rw [Gap.chars, List.flatMap_cons, hd, List.cons_append, List.cons_append, List.head?_cons,
      Option.mem_some_iff] at hc
    exact hc ▸ hstop

/-- No character of a word may stand behind a word. -/
theorem not_isStop_of_mem_pattern {k : Kind} {w : List Char} (h : w ∈ pattern k) :
    ∀ c ∈ w, ¬ IsStop c := by
  rintro c hc (hseparator | hhash)
  · have hblank := isBlank_of_isSeparator hseparator
    rw [(isWord_of_mem_pattern h).not_isBlank c hc] at hblank
    exact Bool.false_ne_true hblank
  · exact ne_hash_of_mem_pattern h c hc hhash

theorem ne_nil_of_mem_pattern {k : Kind} {w : List Char} (h : w ∈ pattern k) : w ≠ [] :=
  (isWord_of_mem_pattern h).ne_nil

/-- A word behind a gap is the next lexeme. -/
theorem exists_lexeme?_of_isStop {k : Kind} {w cs : List Char} (h : w ∈ pattern k)
    (hcs : ∀ c ∈ cs.head?, IsStop c) :
    ∃ n, lexeme? (w ++ cs) = some (k, n) ∧ (w ++ cs).take n = w ∧ (w ++ cs).drop n = cs := by
  apply exists_lexeme?_of_longest h
  intro c rest n hrest l hmem
  have hc : c ∈ cs.head? := by
    cases cs with
    | nil => simp at hrest
    | cons d ds =>
      cases n with
      | zero => simp at hrest
      | succ n =>
        rw [List.take_succ_cons, List.cons.injEq] at hrest
        exact hrest.1 ▸ rfl
  exact not_isStop_of_mem_pattern hmem c (by simp) (hcs c hc)

theorem gap_of_mem_pattern {k : Kind} {w : List Char} (h : w ∈ pattern k) (cs : List Char) :
    gap false (w ++ cs) = 0 := by
  match w, ne_nil_of_mem_pattern h with
  | c :: w, _ =>
    have hstop := not_isStop_of_mem_pattern h c (List.mem_cons_self ..)
    rw [IsStop, not_or] at hstop
    rw [List.cons_append, gap, if_neg Bool.false_ne_true, if_neg hstop.1,
      if_neg (by rw [beq_iff_eq]; exact hstop.2)]

theorem ofTextAt_gap (p : Position) (g : Gap) : ofTextAt p g.chars = .ok [] := by
  have hgap : gap false g.chars = g.chars.length := by
    simpa [gap] using gap_chars_append g []
  have hdrop : g.chars.drop (gap false g.chars) = [] := by
    rw [hgap, List.drop_length]
  rw [ofTextAt]
  split
  · rfl
  · next hr => simp [hdrop] at hr

/-- The lexer passes over a gap and takes the word behind it. -/
theorem ofTextAt_word {p : Position} {g : Gap} {k : Kind} {w cs : List Char} {ts : List Token}
    (h : w ∈ pattern k) (hcs : ∀ c ∈ cs.head?, IsStop c)
    (hts : ofTextAt ((p.after g.chars).after w) cs = .ok ts) :
    ofTextAt p (g.chars ++ (w ++ cs)) = .ok (⟨k, String.ofList w, p.after g.chars⟩ :: ts) := by
  have hgap : gap false (g.chars ++ (w ++ cs)) = g.chars.length := by
    rw [gap_chars_append, gap_of_mem_pattern h, Nat.add_zero]
  have hdrop : (g.chars ++ (w ++ cs)).drop (gap false (g.chars ++ (w ++ cs))) = w ++ cs := by
    rw [hgap, List.drop_left]
  have htake : (g.chars ++ (w ++ cs)).take (gap false (g.chars ++ (w ++ cs))) = g.chars := by
    rw [hgap, List.take_left]
  obtain ⟨n, hfound, hword, hrest⟩ := exists_lexeme?_of_isStop h hcs
  rw [ofTextAt]
  split
  · next hr =>
    rw [hdrop, List.append_eq_nil_iff] at hr
    exact absurd hr.1 (ne_nil_of_mem_pattern h)
  · next c rest hr =>
    rw [hdrop] at hr
    rw [hr] at hfound hword hrest
    split
    · next hl => simp [hfound] at hl
    · next l m hl =>
      obtain ⟨rfl, rfl⟩ := Prod.mk.inj (Option.some.inj (hfound.symm.trans hl))
      rw [htake, hword, hrest]
      dsimp only
      rw [hts]

/-! ## Whole texts -/

theorem exists_ofTextAt_spaced {words : List String} (b : Spaced words)
    (hwords : ∀ w ∈ words, ∃ k, w.toList ∈ pattern k) (p : Position) (g : Gap) :
    ∃ ts, ofTextAt p (g.chars ++ b.chars) = .ok ts ∧
      ts.map (fun t => (t.value, t.pos)) = b.placed (p.after g.chars) := by
  induction b generalizing p g with
  | last word gap =>
    obtain ⟨k, hk⟩ := hwords word (List.mem_singleton_self word)
    have hstop := @isStop_head_gap gap [] (.inr rfl)
    rw [List.append_nil] at hstop
    refine ⟨_, ofTextAt_word hk hstop (ofTextAt_gap _ gap), ?_⟩
    simp [Spaced.placed]
  | cons word gap hgap rest ih =>
    rw [List.forall_mem_cons] at hwords
    obtain ⟨k, hk⟩ := hwords.1
    obtain ⟨ts, hts, hplaced⟩ := ih hwords.2 ((p.after g.chars).after word.toList) gap
    refine ⟨_, ofTextAt_word hk (isStop_head_gap (.inl hgap)) hts, ?_⟩
    rw [List.map_cons, hplaced, Spaced.placed, String.ofList_toList]

/-- Whatever the layout of words, the tokens are the words at their places. -/
theorem exists_ofText_layout {words : List String} (l : Layout words)
    (hwords : ∀ w ∈ words, ∃ k, w.toList ∈ pattern k) :
    ∃ ts, Token.ofText l.text = .ok ts ∧ ts.map (fun t => (t.value, t.pos)) = l.placed := by
  rw [Token.ofText, Layout.text, String.toList_ofList]
  exact exists_ofTextAt_spaced l.body hwords Position.start l.lead

end NeuralArch.Lexing
