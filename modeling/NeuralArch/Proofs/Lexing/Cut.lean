import Mathlib.Data.List.DropRight
import NeuralArch.Proofs.Layout.Page
import NeuralArch.Proofs.Lexing.Spacing

/-!
# How a text is cut

The lexer loses nothing: a text is its tokens in order, with gaps before them
and one at the end. The end is where a comment may lack its line feed. Each
token is the longest prefix of what is left that fits any kind, and each stands
where it says, the line being counted by line feeds and the column by bytes.
If the lexer stops, it has cut the text in the same way up to the character it
names, and nothing begins there.

The lexer is a recursion on the text it has not read yet, and the claim about
places is one about the text it has read. So the invariant `Cut` carries both:
the text behind, and the pieces ahead.

Main results:

* `after_start` — a position, read off the text before it.
* `exists_gap` — what the lexer passes over is a gap, as far as it goes.
* `isLexeme_of_lexeme?`, `not_prefix_of_lexeme?` — the lexeme, and its absence.
* `Cut.pairwise_precedes` — positions grow along a cut.
* `cutsTo_ofText` — every text is cut, or cut up to a character that begins nothing.
-/

namespace NeuralArch.Lexing

open Token
open NeuralArch.Layout.Page (byteLength byteLength_append)

/-! ## Places -/

/-- Where the character behind a text stands: the line counts the line feeds, the column the
bytes behind the last of them. -/
def placeBehind (cs : List Char) : Position :=
  ⟨1 + cs.count '\n', 1 + byteLength (cs.rtakeWhile (· ≠ '\n'))⟩

theorem advance_placeBehind (cs : List Char) (c : Char) :
    (placeBehind cs).advance c = placeBehind (cs ++ [c]) := by
  by_cases h : c = '\n'
  · subst h
    rw [Position.advance, if_pos rfl, placeBehind, placeBehind, List.count_append,
      List.rtakeWhile_concat_neg (· ≠ '\n') cs '\n' (by simp)]
    rfl
  · have hcount : List.count '\n' [c] = 0 := List.count_eq_zero.2 (by simpa using Ne.symm h)
    rw [Position.advance, if_neg h, placeBehind, placeBehind, List.count_append, hcount,
      List.rtakeWhile_concat_pos (· ≠ '\n') cs c (by simpa using h), byteLength_append,
      ← Nat.add_assoc, ← Nat.add_assoc]
    rfl

theorem after_placeBehind (cs ds : List Char) :
    (placeBehind cs).after ds = placeBehind (cs ++ ds) := by
  induction ds generalizing cs with
  | nil => rw [Position.after_nil, List.append_nil]
  | cons d ds ih =>
    rw [Position.after_cons, advance_placeBehind, ih, List.append_assoc, List.singleton_append]

/-- The lexer's positions are read off the text before them. -/
theorem after_start (cs : List Char) : Position.start.after cs = placeBehind cs := by
  have hstart : placeBehind [] = Position.start := rfl
  rw [← hstart, after_placeBehind, List.nil_append]

/-- The strict order of reading. -/
def Precedes (p q : Position) : Prop := p.line < q.line ∨ p.line = q.line ∧ p.column < q.column

theorem Precedes.trans {p q r : Position} (hpq : Precedes p q) (hqr : Precedes q r) :
    Precedes p r := by
  unfold Precedes at *
  omega

theorem precedes_advance (p : Position) (c : Char) : Precedes p (p.advance c) := by
  by_cases h : c = '\n'
  · rw [Position.advance, if_pos h]
    exact .inl (Nat.lt_succ_self _)
  · have hsize := c.utf8Size_pos
    rw [Position.advance, if_neg h]
    exact .inr ⟨rfl, Nat.lt_add_of_pos_right hsize⟩

theorem precedes_after {p : Position} {cs : List Char} (h : cs ≠ []) : Precedes p (p.after cs) := by
  induction cs generalizing p with
  | nil => exact absurd rfl h
  | cons c cs ih =>
    cases cs with
    | nil => exact precedes_advance p c
    | cons d ds => exact (precedes_advance p c).trans (ih (List.cons_ne_nil d ds))

/-! ## What is passed over -/

/-- What may stand behind the last token. A comment may run to the end of the text. -/
def IsEnding (cs : List Char) : Prop :=
  ∃ g : Gap, cs = g.chars ∨ ∃ text, '\n' ∉ text ∧ cs = g.chars ++ '#' :: text

/-- A text begins with a gap, behind which a token may begin, or a comment goes on to the end. -/
theorem exists_gap (cs : List Char) :
    ∃ (g : Gap) (rest : List Char), cs = g.chars ++ rest ∧
      ((∀ c ∈ rest.head?, ¬ IsStop c) ∨ ∃ text, '\n' ∉ text ∧ rest = '#' :: text) := by
  induction hn : cs.length using Nat.strong_induction_on generalizing cs with
  | _ n ih =>
    cases cs with
    | nil => exact ⟨[], [], rfl, .inl (by simp)⟩
    | cons c cs =>
      rw [List.length_cons] at hn
      by_cases hseparator : c ∈ separators
      · obtain ⟨g, rest, hcs, hrest⟩ := ih cs.length (by omega) cs rfl
        exact ⟨.separator c hseparator :: g, rest, congrArg (c :: ·) hcs, hrest⟩
      · by_cases hhash : c = '#'
        · by_cases hclosed : '\n' ∈ cs
          · -- The comment closes, and the text goes on behind its line feed.
            obtain ⟨text, ds, rfl, htext⟩ := List.eq_append_cons_of_mem hclosed
            rw [List.length_append, List.length_cons] at hn
            obtain ⟨g, rest, hds, hrest⟩ := ih ds.length (by omega) ds rfl
            refine ⟨.comment text htext :: g, rest, ?_, hrest⟩
            show c :: (text ++ '\n' :: ds) = '#' :: (text ++ ['\n']) ++ g.chars ++ rest
            rw [hhash, hds]
            simp
          · exact ⟨[], c :: cs, rfl, .inr ⟨cs, hclosed, by rw [hhash]⟩⟩
        · refine ⟨[], c :: cs, rfl, .inl fun d hd => ?_⟩
          obtain rfl := Option.some.inj hd
          rintro (h | h)
          · exact hseparator (by simpa [isSeparator, separators, or_assoc] using h)
          · exact hhash h

theorem gap_of_not_isStop {cs : List Char} (h : ∀ c ∈ cs.head?, ¬ IsStop c) :
    gap false cs = 0 := by
  cases cs with
  | nil => rfl
  | cons c cs =>
    have hstop := h c rfl
    rw [IsStop, not_or] at hstop
    rw [gap, if_neg Bool.false_ne_true, if_neg hstop.1, if_neg (by simpa using hstop.2)]

theorem gap_unclosed {text : List Char} (h : '\n' ∉ text) :
    gap true text = text.length := by
  induction text with
  | nil => rfl
  | cons c text ih =>
    rw [List.mem_cons, not_or] at h
    have hc : (c != '\n') = true := by
      rw [bne_iff_ne]
      exact fun heq => h.1 heq.symm
    rw [gap, if_pos rfl, hc, ih h.2, List.length_cons]

/-- What the lexer passes over is a gap, or all the rest of the text. -/
theorem exists_take_gap (cs : List Char) :
    (∃ g : Gap, cs.take (gap false cs) = g.chars ∧
        ∀ c ∈ (cs.drop (gap false cs)).head?, ¬ IsStop c) ∨
      (IsEnding cs ∧ cs.drop (gap false cs) = []) := by
  obtain ⟨g, rest, rfl, hrest | ⟨text, htext, rfl⟩⟩ := exists_gap cs
  · rw [gap_chars_append, gap_of_not_isStop hrest, Nat.add_zero, List.take_left, List.drop_left]
    exact .inl ⟨g, rfl, hrest⟩
  · have hall : gap false ('#' :: text) = ('#' :: text).length := by
      rw [gap, if_neg Bool.false_ne_true, if_neg (by decide), if_pos (by decide),
        gap_unclosed htext, List.length_cons]
    refine .inr ⟨⟨g, .inr ⟨text, htext, rfl⟩⟩, ?_⟩
    rw [gap_chars_append, hall, ← List.length_append, List.drop_length]

/-! ## Lexemes -/

/-- Whether `w` is the longest prefix of `w ++ rest` that fits a kind, and fits `k` alone. -/
structure IsLexeme (k : Kind) (w rest : List Char) : Prop where
  fits : w ∈ pattern k
  only : ∀ l, w ∈ pattern l → l = k
  longest : ∀ l v, v ∈ pattern l → v <+: w ++ rest → v.length ≤ w.length

theorem isLexeme_of_lexeme? {cs : List Char} {k : Kind} {n : Nat} (h : lexeme? cs = some (k, n)) :
    IsLexeme k (cs.take n) (cs.drop n) := by
  have hfits := take_mem_pattern h
  refine ⟨hfits, fun l hl => pattern_injective hl hfits, fun l v hv hprefix => ?_⟩
  rw [List.take_append_drop] at hprefix
  obtain ⟨tail, rfl⟩ := hprefix
  obtain ⟨l', n', hfound, hle⟩ := length_le_lexeme? hv tail
  obtain ⟨-, rfl⟩ := Prod.mk.inj (Option.some.inj (h.symm.trans hfound))
  rw [List.length_take, List.length_append]
  omega

/-- Where the lexer finds no lexeme, no text of any kind begins. -/
theorem not_prefix_of_lexeme? {cs : List Char} (h : lexeme? cs = none) {k : Kind}
    {w : List Char} (hw : w ∈ pattern k) : ¬ w <+: cs := by
  rintro ⟨tail, rfl⟩
  obtain ⟨l, n, hfound, -⟩ := length_le_lexeme? hw tail
  rw [h] at hfound
  exact Option.some_ne_none _ hfound.symm

/-! ## Cuts -/

/-- A token with the gap before it. -/
structure Piece where
  gap : Gap
  token : Token

def Piece.chars (p : Piece) : List Char := p.gap.chars ++ p.token.value.toList

/-- The text of some pieces. -/
def written (pieces : List Piece) : List Char := pieces.flatMap Piece.chars

theorem written_cons (p : Piece) (pieces : List Piece) :
    written (p :: pieces) = p.chars ++ written pieces := List.flatMap_cons

/-- Pieces between a text before them and a text behind them: each token is the lexeme of what
is left from it on, and stands where what is before it ends. -/
inductive Cut (rest : List Char) : List Char → List Piece → Prop
  | nil (before : List Char) : Cut rest before []
  | cons {before : List Char} {p : Piece} {pieces : List Piece}
      (hlexeme : IsLexeme p.token.kind p.token.value.toList (written pieces ++ rest))
      (hplace : p.token.pos = placeBehind (before ++ p.gap.chars))
      (tail : Cut rest (before ++ p.chars) pieces) : Cut rest before (p :: pieces)

theorem Cut.exists_place {rest before : List Char} {pieces : List Piece}
    (h : Cut rest before pieces) :
    ∀ p ∈ pieces, ∃ more, p.token.pos = placeBehind (before ++ more) := by
  induction h with
  | nil => simp
  | @cons before p pieces _ hplace _ ih =>
    intro q hq
    rcases List.mem_cons.1 hq with rfl | hq
    · exact ⟨q.gap.chars, hplace⟩
    · obtain ⟨more, hmore⟩ := ih q hq
      exact ⟨p.chars ++ more, by rw [hmore, List.append_assoc]⟩

/-- Positions grow along a cut. -/
theorem Cut.pairwise_precedes {rest before : List Char} {pieces : List Piece}
    (h : Cut rest before pieces) :
    ((pieces.map Piece.token).map Token.pos).Pairwise Precedes := by
  induction h with
  | nil => exact .nil
  | @cons before p pieces hlexeme hplace tail ih =>
    refine List.pairwise_cons.2 ⟨fun pos hpos => ?_, ih⟩
    rw [List.map_map] at hpos
    obtain ⟨q, hq, rfl⟩ := List.mem_map.1 hpos
    obtain ⟨more, hmore⟩ := tail.exists_place q hq
    have hne : p.token.value.toList ++ more ≠ [] :=
      List.append_ne_nil_of_left_ne_nil (ne_nil_of_mem_pattern hlexeme.fits) more
    have hplaced : q.token.pos = p.token.pos.after (p.token.value.toList ++ more) := by
      rw [hmore, hplace, after_placeBehind, Piece.chars]
      simp only [List.append_assoc]
    show Precedes p.token.pos q.token.pos
    rw [hplaced]
    exact precedes_after hne

/-! ## The lexer -/

/-- What a text behind another is cut to. Tokens come with gaps before them and at growing
places, and the text has a proper ending behind them. An error names the character behind some
tokens and a gap, where neither a gap nor a token goes on. -/
def CutsTo (before cs : List Char) : Except SyntaxError (List Token) → Prop
  | .ok tokens => ∃ pieces ending, cs = written pieces ++ ending ∧ IsEnding ending ∧
      Cut ending before pieces ∧ pieces.map Piece.token = tokens ∧
      (tokens.map Token.pos).Pairwise Precedes
  | .error e => ∃ (pieces : List Piece) (g : Gap) (c : Char) (rest : List Char),
      cs = written pieces ++ (g.chars ++ c :: rest) ∧
      Cut (g.chars ++ c :: rest) before pieces ∧
      ¬ IsStop c ∧ (∀ k, ∀ w ∈ pattern k, ¬ w <+: c :: rest) ∧
      e = ⟨.unrecognized c, placeBehind (before ++ (written pieces ++ g.chars))⟩

/-- One more token before a text that is cut. -/
theorem CutsTo.cons {before cs : List Char} {p : Piece}
    {result : Except SyntaxError (List Token)}
    (hlexeme : IsLexeme p.token.kind p.token.value.toList cs)
    (hplace : p.token.pos = placeBehind (before ++ p.gap.chars))
    (h : CutsTo (before ++ p.chars) cs result) :
    CutsTo before (p.chars ++ cs) (result.map (p.token :: ·)) := by
  cases result with
  | ok tokens =>
    obtain ⟨pieces, ending, rfl, hending, htail, rfl, -⟩ := h
    have hcut : Cut ending before (p :: pieces) := .cons hlexeme hplace htail
    refine ⟨p :: pieces, ending, ?_, hending, hcut, rfl, hcut.pairwise_precedes⟩
    rw [written_cons, List.append_assoc]
  | error e =>
    obtain ⟨pieces, g, c, rest, rfl, hcut, hstop, hnone, rfl⟩ := h
    refine ⟨p :: pieces, g, c, rest, ?_, .cons hlexeme hplace hcut, hstop, hnone, ?_⟩
    · rw [written_cons, List.append_assoc]
    · rw [written_cons, List.append_assoc, List.append_assoc]

/-- The same, as the lexer finds it: behind a gap, its lexeme is the token. -/
theorem CutsTo.lexeme {before cs : List Char} {g : Gap} {k : Kind} {n : Nat}
    {result : Except SyntaxError (List Token)} (hl : lexeme? cs = some (k, n))
    (h : CutsTo (before ++ g.chars ++ cs.take n) (cs.drop n) result) :
    CutsTo before (g.chars ++ cs)
      (result.map (⟨k, String.ofList (cs.take n), placeBehind (before ++ g.chars)⟩ :: ·)) := by
  have hcut := @CutsTo.cons before (cs.drop n)
    ⟨g, k, String.ofList (cs.take n), placeBehind (before ++ g.chars)⟩ result
    (by rw [String.toList_ofList]; exact isLexeme_of_lexeme? hl) rfl
    (by rwa [Piece.chars, String.toList_ofList, ← List.append_assoc])
  rwa [Piece.chars, String.toList_ofList, List.append_assoc, List.take_append_drop] at hcut

theorem cutsTo_ofTextAt (before cs : List Char) :
    CutsTo before cs (ofTextAt (placeBehind before) cs) := by
  induction hn : cs.length using Nat.strong_induction_on generalizing before cs with
  | _ n ih =>
    have hsplit := List.take_append_drop (gap false cs) cs
    rw [ofTextAt]
    split
    · next hr =>
      have hending : IsEnding cs := by
        obtain ⟨g, htake, -⟩ | ⟨hending, -⟩ := exists_take_gap cs
        · rw [hr, List.append_nil] at hsplit
          exact ⟨g, .inl (hsplit.symm.trans htake)⟩
        · exact hending
      exact ⟨[], cs, rfl, hending, .nil before, rfl, .nil⟩
    · next c rest hr =>
      obtain ⟨g, htake, hstop⟩ | ⟨-, hdrop⟩ := exists_take_gap cs
      · rw [hr] at hsplit hstop
        rw [htake] at hsplit ⊢
        rw [after_placeBehind]
        split
        · next hl =>
          exact ⟨[], g, c, rest, hsplit.symm, .nil before, hstop c rfl,
            fun k w hw => not_prefix_of_lexeme? hl hw, rfl⟩
        · next k m hl =>
          have hlength := length_drop_lexeme hr hl
          have htail := ih ((c :: rest).drop m).length
            (by rw [List.length_drop, List.length_cons]; omega)
            (before ++ g.chars ++ (c :: rest).take m) ((c :: rest).drop m) rfl
          have hcut := htail.lexeme hl
          rw [hsplit, ← after_placeBehind (before ++ g.chars)] at hcut
          dsimp only
          split
          · next e he => rwa [he] at hcut
          · next tokens htokens => rwa [htokens] at hcut
      · rw [hdrop] at hr
        exact absurd hr.symm (List.cons_ne_nil c rest)

/-- Every text is cut into tokens with gaps before them, each the longest that fits and each at
its place, or it is cut so up to a character where nothing begins. -/
theorem cutsTo_ofText (text : String) : CutsTo [] text.toList (Token.ofText text) :=
  cutsTo_ofTextAt [] text.toList

end NeuralArch.Lexing
