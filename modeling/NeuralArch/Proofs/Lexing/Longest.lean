import Mathlib.Data.List.TakeWhile
import NeuralArch.Proofs.Lexing.Number
import NeuralArch.Proofs.Lexing.Scan

/-!
# The longest match, and texts of words

The lexer takes the longest prefix that fits any kind, and a text fits at most
one.  A text of a kind is a single word, so the lexer never takes more than one
word, and it takes a whole word if that fits a kind.

* `length_le_lexeme?` — no prefix that fits a kind is longer than the lexeme.
* `pattern_injective` — a text determines its kind.
* `exists_ofTextAt_of_scan` — where every word of a text fits a kind, the tokens are
  these words.
-/

namespace NeuralArch.Lexing

open Number Token Text

/-! ## Lengths of numbers -/

theorem digitCount_append {ds : List Char} (h : isDigits ds = true) (cs : List Char) :
    digitCount (ds ++ cs) = ds.length + digitCount cs := by
  rw [digitCount, List.takeWhile_append_of_pos (mem_digits_iff.1 h).2, List.length_append,
    digitCount]

theorem digitCount_of_head {c : Char} (h : c.isDigit = false) (cs : List Char) :
    digitCount (c :: cs) = 0 := by
  rw [digitCount, List.takeWhile_cons_of_neg (by simp [h]), List.length_nil]

theorem length_pos_of_isDigits {ds : List Char} (h : isDigits ds = true) : 0 < ds.length :=
  List.length_pos_iff.2 (mem_digits_iff.1 h).1

theorem integerLength_append {ws : List Char} (h : ws ∈ integer) (cs : List Char) :
    integerLength (ws ++ cs) = ws.length + digitCount cs := by
  obtain ⟨ds, hds, rfl | rfl⟩ := mem_integer_iff.1 h
  · obtain ⟨d, rest, rfl, hd⟩ := exists_cons_of_isDigits hds
    have hminus : ¬ (d :: rest ++ cs).head? = some '-' := by
      simpa using isDigit_ne hd rfl
    have hpos := length_pos_of_isDigits hds
    unfold integerLength
    dsimp only
    rw [if_neg hminus, List.drop_zero, digitCount_append hds, if_neg (by omega), Nat.zero_add]
  · have hminus : ('-' :: ds ++ cs).head? = some '-' := rfl
    have hpos := length_pos_of_isDigits hds
    unfold integerLength
    dsimp only
    rw [if_pos hminus, List.cons_append, List.drop_succ_cons, List.drop_zero,
      digitCount_append hds, if_neg (by omega), List.length_cons]
    omega

theorem fractionLength_append {fs : List Char} (h : fs ∈ fraction) (cs : List Char) :
    fractionLength (fs ++ cs) = fs.length + digitCount cs := by
  obtain ⟨ds, hds, rfl⟩ := head_of_mem_fraction h
  have hpos := length_pos_of_isDigits hds
  rw [List.cons_append, fractionLength, digitCount_append hds, if_neg (by omega),
    List.length_cons]
  omega

theorem exponentLength_append {es : List Char} (h : es ∈ exponent) (cs : List Char) :
    exponentLength (es ++ cs) = es.length + digitCount cs := by
  obtain ⟨c, sign, ds, hc, hsign, hds, rfl⟩ := head_of_mem_exponent h
  have hpos := length_pos_of_isDigits hds
  have hlength : signLength (sign ++ (ds ++ cs)) = sign.length := by
    rcases hsign with rfl | ⟨s, hs, rfl⟩
    · obtain ⟨d, rest, rfl, hd⟩ := exists_cons_of_isDigits hds
      have hplus : d ≠ '+' := isDigit_ne hd rfl
      have hminus : d ≠ '-' := isDigit_ne hd rfl
      simp [signLength, hplus, hminus]
    · rw [List.singleton_append, signLength, if_pos hs, List.length_singleton]
  rw [List.cons_append, exponentLength, if_pos hc, List.append_assoc]
  dsimp only
  rw [hlength, List.drop_left, digitCount_append hds, if_neg (by omega), List.length_cons,
    List.length_append]
  omega

theorem fractionLength_of_mem_exponent {es : List Char} (h : es ∈ exponent) (cs : List Char) :
    fractionLength (es ++ cs) = 0 := by
  obtain ⟨c, sign, ds, hc, -, -, rfl⟩ := head_of_mem_exponent h
  have hpoint : c ≠ '.' := by
    rintro rfl
    simp at hc
  rw [List.cons_append]
  unfold fractionLength
  split
  · next heq => exact absurd (List.cons.inj heq).1 hpoint
  · rfl

theorem digitCount_of_mem_exponent {es : List Char} (h : es ∈ exponent) (cs : List Char) :
    digitCount (es ++ cs) = 0 := by
  obtain ⟨c, sign, ds, hc, -, -, rfl⟩ := head_of_mem_exponent h
  exact digitCount_of_head (isDigit_of_isPower hc) _

/-- What makes an integer a float is found behind it, whatever follows. -/
theorem length_le_fraction_exponent {rest : List Char}
    (h : rest ∈ fraction * optional exponent + exponent) (cs : List Char) :
    rest.length ≤ fractionLength (rest ++ cs) +
      exponentLength ((rest ++ cs).drop (fractionLength (rest ++ cs))) := by
  rcases h with h | h
  · obtain ⟨fs, hfs, es, hes, rfl⟩ := Language.mem_mul.1 h
    rw [List.append_assoc, fractionLength_append hfs, List.length_append]
    rcases hes with rfl | hes
    · simp only [List.nil_append, List.length_nil]
      omega
    · rw [digitCount_of_mem_exponent hes, Nat.add_zero, List.drop_left,
        exponentLength_append hes]
      omega
  · rw [fractionLength_of_mem_exponent h, List.drop_zero, exponentLength_append h]
    omega

theorem length_le_number? {w : List Char} (h : w ∈ integer ∨ w ∈ float) (cs : List Char) :
    ∃ k n, number? (w ++ cs) = some (k, n) ∧ w.length ≤ n := by
  have hpos : ∀ {ws : List Char}, ws ∈ integer → 0 < ws.length := by
    intro ws hws
    obtain ⟨ds, hds, rfl | rfl⟩ := mem_integer_iff.1 hws
    · exact length_pos_of_isDigits hds
    · simp
  rcases h with h | h
  · have hwhole := integerLength_append h cs
    have hw := hpos h
    refine ⟨_, _, if_neg (by omega), ?_⟩
    omega
  · obtain ⟨ws, rest, hws, hrest, rfl⟩ := exists_append_of_mem_float h
    obtain ⟨c, tail, rfl, hc⟩ := exists_head_not_digit hrest
    have hwhole := integerLength_append hws (c :: tail ++ cs)
    rw [List.cons_append, digitCount_of_head hc, Nat.add_zero, ← List.cons_append] at hwhole
    have hlength := length_le_fraction_exponent hrest cs
    have hw := hpos hws
    rw [List.append_assoc]
    refine ⟨_, _, if_neg (by omega), ?_⟩
    rw [hwhole, ← List.drop_drop, List.drop_left, List.length_append]
    omega

/-! ## The longest match -/

theorem mem_number_of_spelling? {k : Kind} {w : List Char} (h : w ∈ pattern k)
    (hs : k.spelling? = none) : w ∈ integer ∨ w ∈ float := by
  rw [pattern, hs] at h
  dsimp only at h
  split at h
  · exact .inl h
  · exact .inr h

theorem length_le_longer (best : Option (Kind × Nat)) (candidate : Kind × Nat) :
    ∃ found, longer best candidate = some found ∧ candidate.2 ≤ found.2 ∧
      ∀ b ∈ best, b.2 ≤ found.2 := by
  unfold longer
  cases best with
  | none => exact ⟨candidate, rfl, Nat.le_refl _, by simp⟩
  | some b =>
    dsimp only
    by_cases h : b.2 < candidate.2
    · rw [if_pos h]
      exact ⟨candidate, rfl, Nat.le_refl _, by simpa using Nat.le_of_lt h⟩
    · rw [if_neg h]
      exact ⟨b, rfl, Nat.le_of_not_lt h, by simp⟩

/-- Along a table, the best reading only grows. -/
theorem length_le_foldl_longer {k : Kind} {s cs : List Char} (hbegins : s.isPrefixOf cs = true)
    (table : List (Kind × List Char)) (best : Option (Kind × Nat))
    (h : (k, s) ∈ table ∨ ∃ b ∈ best, s.length ≤ b.2) :
    ∃ found, table.foldl (fun best (kind, spelling) =>
      if spelling.isPrefixOf cs then longer best (kind, spelling.length) else best) best
      = some found ∧ s.length ≤ found.2 := by
  induction table generalizing best with
  | nil =>
    obtain ⟨b, hb, hle⟩ := h.resolve_left (by simp)
    exact ⟨b, hb, hle⟩
  | cons entry table ih =>
    rw [List.foldl_cons]
    apply ih
    dsimp only
    rcases h with h | ⟨b, hb, hle⟩
    · rcases List.mem_cons.1 h with rfl | h
      · obtain ⟨found, hfound, hle, -⟩ := length_le_longer best (k, s.length)
        rw [if_pos hbegins]
        exact .inr ⟨found, hfound, hle⟩
      · exact .inl h
    · right
      split
      · obtain ⟨found, hfound, -, hbest⟩ := length_le_longer best (entry.1, entry.2.length)
        exact ⟨found, hfound, hle.trans (hbest b hb)⟩
      · exact ⟨b, hb, hle⟩

theorem length_le_spelled? {k : Kind} {s cs : List Char} (hs : (k, s) ∈ spellings)
    (hbegins : s.isPrefixOf cs = true) :
    ∃ found, spelled? cs = some found ∧ s.length ≤ found.2 :=
  length_le_foldl_longer hbegins spellings none (.inl hs)

/-- No prefix that fits a kind is longer than the lexeme. -/
theorem length_le_lexeme? {k : Kind} {w : List Char} (h : w ∈ pattern k) (cs : List Char) :
    ∃ l n, lexeme? (w ++ cs) = some (l, n) ∧ w.length ≤ n := by
  cases hs : k.spelling? with
  | some s =>
    obtain rfl := (mem_pattern_of_spelling? hs).1 h
    obtain ⟨⟨l, n⟩, hfound, hle⟩ := length_le_spelled? (mem_spellings_iff.2 ⟨s, hs, rfl⟩)
      (List.isPrefixOf_iff_prefix.2 (List.prefix_append s.toList cs))
    refine ⟨l, n, ?_, hle⟩
    cases hnumber : number? (s.toList ++ cs) with
    | none => rw [lexeme?, hnumber, Option.none_or, hfound]
    | some found =>
      rw [spelled?_eq_none_of_number? hnumber] at hfound
      simp at hfound
  | none =>
    obtain ⟨l, n, hfound, hle⟩ := length_le_number? (mem_number_of_spelling? h hs) cs
    exact ⟨l, n, by rw [lexeme?, hfound, Option.some_or], hle⟩

/-! ## Kinds and their texts -/

theorem isInner_of_isDigit {c : Char} (h : c.isDigit = true) : isInner c = true := by
  have hmark : isMark c = false := by
    rw [Bool.eq_false_iff]
    intro hmark
    simp only [isMark, Bool.or_eq_true, beq_iff_eq] at hmark
    rcases hmark with (((((rfl | rfl) | rfl) | rfl) | rfl) | rfl) | rfl <;> simp at h
  have hblank : isBlank c = false := by
    rw [Char.isDigit, Bool.and_eq_true, decide_eq_true_eq, decide_eq_true_eq] at h
    have hlow : 48 ≤ c.toNat := h.1
    have hhigh : c.toNat ≤ 57 := h.2
    simp only [isBlank, blankRanges, List.any_cons, List.any_nil, Bool.or_false,
      Bool.or_eq_false_iff, Bool.and_eq_false_iff, decide_eq_false_iff_not]
    omega
  simp [isInner, hmark, hblank]

/-- The characters that numbers are written with. -/
def isNumeral (c : Char) : Bool :=
  c.isDigit || c == '-' || c == '+' || c == '.' || c == 'e' || c == 'E'

theorem isNumeral_of_isDigit {c : Char} (h : c.isDigit = true) : isNumeral c = true := by
  simp [isNumeral, h]

theorem isNumeral_of_mem_digits {ds : List Char} (h : isDigits ds = true) :
    ∀ c ∈ ds, isNumeral c = true :=
  fun c hc => isNumeral_of_isDigit ((mem_digits_iff.1 h).2 c hc)

theorem isNumeral_of_mem_integer {ws : List Char} (h : ws ∈ integer) :
    ∀ c ∈ ws, isNumeral c = true := by
  obtain ⟨ds, hds, rfl | rfl⟩ := mem_integer_iff.1 h
  · exact isNumeral_of_mem_digits hds
  · exact List.forall_mem_cons.2 ⟨by decide, isNumeral_of_mem_digits hds⟩

theorem isNumeral_of_mem_exponent {es : List Char} (h : es ∈ exponent) :
    ∀ c ∈ es, isNumeral c = true := by
  obtain ⟨c, sign, ds, hc, hsign, hds, rfl⟩ := head_of_mem_exponent h
  refine List.forall_mem_cons.2 ⟨?_, List.forall_mem_append.2 ⟨?_, isNumeral_of_mem_digits hds⟩⟩
  · rw [Bool.or_eq_true, beq_iff_eq, beq_iff_eq] at hc
    rcases hc with rfl | rfl <;> decide
  · rcases hsign with rfl | ⟨s, hs, rfl⟩
    · simp
    · rw [Bool.or_eq_true, beq_iff_eq, beq_iff_eq] at hs
      rw [List.forall_mem_singleton]
      rcases hs with rfl | rfl <;> decide

theorem isNumeral_of_mem_float {ws : List Char} (h : ws ∈ float) :
    ∀ c ∈ ws, isNumeral c = true := by
  obtain ⟨is, rest, his, hrest, rfl⟩ := exists_append_of_mem_float h
  refine List.forall_mem_append.2 ⟨isNumeral_of_mem_integer his, ?_⟩
  rcases hrest with hrest | hrest
  · obtain ⟨fs, hfs, es, hes, rfl⟩ := Language.mem_mul.1 hrest
    obtain ⟨ds, hds, rfl⟩ := head_of_mem_fraction hfs
    refine List.forall_mem_append.2 ⟨?_, ?_⟩
    · exact List.forall_mem_cons.2 ⟨by decide, isNumeral_of_mem_digits hds⟩
    · rcases hes with rfl | hes
      · simp
      · exact isNumeral_of_mem_exponent hes
  · exact isNumeral_of_mem_exponent hrest

theorem isNumeral_of_mem_number {w : List Char} (h : w ∈ integer ∨ w ∈ float) :
    ∀ c ∈ w, isNumeral c = true := by
  rcases h with h | h
  · exact isNumeral_of_mem_integer h
  · exact isNumeral_of_mem_float h

theorem isInner_of_isNumeral {c : Char} (h : isNumeral c = true) : isInner c = true := by
  by_cases hdigit : c.isDigit = true
  · exact isInner_of_isDigit hdigit
  · simp only [isNumeral, hdigit, Bool.or_eq_true, beq_iff_eq, Bool.false_eq_true, false_or] at h
    rcases h with (((rfl | rfl) | rfl) | rfl) | rfl <;> decide

/-- Numbers begin with a digit or a minus. -/
theorem exists_head_of_mem_number {w : List Char} (h : w ∈ integer ∨ w ∈ float) :
    ∃ c cs, w = c :: cs ∧ (c = '-' ∨ c.isDigit = true) := by
  have hinteger : ∀ {ws : List Char}, ws ∈ integer →
      ∃ c cs, ws = c :: cs ∧ (c = '-' ∨ c.isDigit = true) := by
    intro ws hws
    obtain ⟨ds, hds, rfl | rfl⟩ := mem_integer_iff.1 hws
    · obtain ⟨d, rest, rfl, hd⟩ := exists_cons_of_isDigits hds
      exact ⟨d, rest, rfl, .inr hd⟩
    · exact ⟨'-', ds, rfl, .inl rfl⟩
  rcases h with h | h
  · exact hinteger h
  · obtain ⟨ws, rest, hws, -, rfl⟩ := exists_append_of_mem_float h
    obtain ⟨c, cs, rfl, hc⟩ := hinteger hws
    exact ⟨c, cs ++ rest, rfl, hc⟩

/-- The texts of a kind are single words. -/
theorem isWord_of_mem_pattern {k : Kind} {w : List Char} (h : w ∈ pattern k) : IsWord w := by
  cases hs : k.spelling? with
  | some s =>
    have htable : ∀ entry ∈ spellings, (entry.2.length = 1 ∧ entry.2.all isMark = true) ∨
        (entry.2 ≠ [] ∧ entry.2.all isInner = true) := by
      decide +kernel
    rw [(mem_pattern_of_spelling? hs).1 h]
    rcases htable (k, s.toList) (mem_spellings_iff.2 ⟨s, hs, rfl⟩) with
      ⟨hlength, hmark⟩ | ⟨hne, hinner⟩
    · obtain ⟨c, hc⟩ := List.length_eq_one_iff.1 hlength
      dsimp only at hc hmark
      rw [hc] at hmark ⊢
      exact .inl ⟨c, by simpa using hmark, rfl⟩
    · exact .inr ⟨hne, List.all_eq_true.1 hinner⟩
  | none =>
    have hnumber := mem_number_of_spelling? h hs
    obtain ⟨c, cs, hw, -⟩ := exists_head_of_mem_number hnumber
    have hnumeral := isNumeral_of_mem_number hnumber
    exact .inr ⟨by simp [hw], fun c hc => isInner_of_isNumeral (hnumeral c hc)⟩

theorem inner_of_number {k : Kind} {w : List Char} (hk : k.isNumber = true)
    (h : w ∈ pattern k) : Inner w := by
  have hs : k.spelling? = none := by
    cases k <;> first | rfl | cases hk
  have hnumber := mem_number_of_spelling? h hs
  obtain ⟨c, cs, rfl, -⟩ := exists_head_of_mem_number hnumber
  have hnumeral := isNumeral_of_mem_number hnumber
  exact ⟨List.cons_ne_nil c cs, fun d hd => isInner_of_isNumeral (hnumeral d hd)⟩

/-- What is spelled with more than one character has no punctuation in it. -/
theorem inner_of_spelling? {k : Kind} {s : String} (hs : k.spelling? = some s)
    (hlong : 1 < s.toList.length) : Inner s.toList := by
  rcases isWord_of_mem_pattern ((mem_pattern_of_spelling? hs).2 rfl) with ⟨c, -, hc⟩ | hinner
  · rw [hc] at hlong
    exact absurd hlong (Nat.lt_irrefl 1)
  · exact hinner

/-- No spelling is a number. -/
theorem not_mem_number_of_spelling? {k : Kind} {s : String} (hs : k.spelling? = some s) :
    ¬ (s.toList ∈ integer ∨ s.toList ∈ float) := by
  have heads : ∀ entry ∈ spellings,
      entry.2.head?.all (fun c => c != '-' && !c.isDigit) = true := by
    decide +kernel
  intro h
  obtain ⟨c, cs, hw, hc⟩ := exists_head_of_mem_number h
  have hhead := heads (k, s.toList) (mem_spellings_iff.2 ⟨s, hs, rfl⟩)
  rw [hw, List.head?_cons, Option.all_some, Bool.and_eq_true, bne_iff_ne] at hhead
  rcases hc with rfl | hc
  · exact hhead.1 rfl
  · simp [hc] at hhead

theorem not_mem_integer_of_mem_float {w : List Char} (h : w ∈ float) : w ∉ integer := by
  intro hinteger
  obtain ⟨negative, ds, hds, hsplit⟩ := splitSign_of_mem_integer hinteger
  have hsplit := hsplit []
  rw [List.append_nil, List.append_nil] at hsplit
  have hread := readInt?_of_mem_float h
  rw [readInt?, hsplit] at hread
  simp [hds] at hread

/-- A text determines its kind. -/
theorem pattern_injective {k l : Kind} {w : List Char} (hk : w ∈ pattern k)
    (hl : w ∈ pattern l) : k = l := by
  have hspelled : ∀ {k l : Kind} {s : String}, k.spelling? = some s → w ∈ pattern k →
      w ∈ pattern l → k = l := by
    intro k l s hs hk hl
    have hw := (mem_pattern_of_spelling? hs).1 hk
    cases ht : l.spelling? with
    | some t =>
      have htable : ∀ a ∈ spellings, ∀ b ∈ spellings, a.2 = b.2 → a.1 = b.1 := by
        decide +kernel
      exact htable (k, s.toList) (mem_spellings_iff.2 ⟨s, hs, rfl⟩) (l, t.toList)
        (mem_spellings_iff.2 ⟨t, ht, rfl⟩) (hw.symm.trans ((mem_pattern_of_spelling? ht).1 hl))
    | none =>
      rw [hw] at hl
      exact absurd (mem_number_of_spelling? hl ht) (not_mem_number_of_spelling? hs)
  cases hs : k.spelling? with
  | some s => exact hspelled hs hk hl
  | none =>
    cases ht : l.spelling? with
    | some t => exact (hspelled ht hl hk).symm
    | none =>
      cases k <;> simp [Kind.spelling?] at hs <;> cases l <;> simp [Kind.spelling?] at ht
      · rfl
      · exact absurd hl (not_mem_integer_of_mem_float hk)
      · exact absurd hk (not_mem_integer_of_mem_float hl)
      · rfl

/-! ## Texts of words -/

theorem startsInner_of_take {cs rest : List Char} {c : Char} {n : Nat}
    (h : cs.take n = c :: rest) : startsInner cs = isInner c := by
  cases cs with
  | nil => simp at h
  | cons d ds =>
    cases n with
    | zero => simp at h
    | succ n =>
      rw [List.take_succ_cons] at h
      rw [startsInner_cons, (List.cons.inj h).1]

/-- The lexer takes a text that fits a kind, no less and no more, if it fits none any longer with
what follows. -/
theorem exists_lexeme?_of_longest {k : Kind} {w cs : List Char} (h : w ∈ pattern k)
    (hlongest : ∀ c rest n, cs.take n = c :: rest → ∀ l, w ++ c :: rest ∉ pattern l) :
    ∃ n, lexeme? (w ++ cs) = some (k, n) ∧ (w ++ cs).take n = w ∧ (w ++ cs).drop n = cs := by
  obtain ⟨l, n, hfound, hle⟩ := length_le_lexeme? h cs
  have htaken := take_mem_pattern hfound
  have htake : (w ++ cs).take n = w ++ cs.take (n - w.length) := by
    rw [List.take_append, List.take_of_length_le hle]
  have hdrop : (w ++ cs).drop n = cs.drop (n - w.length) := by
    rw [List.drop_append, List.drop_of_length_le hle, List.nil_append]
  have hstop : cs.take (n - w.length) = [] := by
    cases hrest : cs.take (n - w.length) with
    | nil => rfl
    | cons c rest =>
      rw [htake, hrest] at htaken
      exact absurd htaken (hlongest c rest _ hrest l)
  rw [hstop, List.append_nil] at htake
  rw [htake] at htaken
  refine ⟨n, by rw [hfound, pattern_injective htaken h], htake, ?_⟩
  rw [hdrop]
  have := List.take_append_drop (n - w.length) cs
  rwa [hstop, List.nil_append] at this

/-- A word that fits a kind is taken whole. -/
theorem exists_lexeme?_append {k : Kind} {w : List Char} (h : w ∈ pattern k) {cs : List Char}
    (hcs : (∃ c, isMark c = true ∧ w = [c]) ∨ startsInner cs = false) :
    ∃ n, lexeme? (w ++ cs) = some (k, n) ∧ (w ++ cs).take n = w ∧ (w ++ cs).drop n = cs := by
  refine exists_lexeme?_of_longest h fun c rest n hrest l htaken => ?_
  -- What is taken goes on behind the word, and is no word.
  rcases isWord_of_mem_pattern htaken with ⟨d, -, hd⟩ | ⟨-, hinner⟩
  · rcases isWord_of_mem_pattern h with ⟨e, -, rfl⟩ | ⟨hne, -⟩
    · simp at hd
    · exact absurd (congrArg List.length hd) (by
        have := List.length_pos_iff.2 hne
        rw [List.length_append, List.length_cons, List.length_singleton]
        omega)
  · rcases hcs with ⟨e, he, rfl⟩ | hcs
    · have := hinner e (by simp)
      rw [isInner_of_isMark he] at this
      exact absurd this Bool.false_ne_true
    · have := hinner c (by simp)
      rw [← startsInner_of_take hrest, hcs] at this
      exact absurd this Bool.false_ne_true

/-- No word holds the mark that a comment begins with. -/
theorem ne_hash_of_mem_pattern {k : Kind} {w : List Char} (h : w ∈ pattern k) :
    ∀ c ∈ w, c ≠ '#' := by
  cases hs : k.spelling? with
  | some s =>
    have htable : ∀ entry ∈ spellings, entry.2.all (· != '#') = true := by decide +kernel
    have hentry := htable (k, s.toList) (mem_spellings_iff.2 ⟨s, hs, rfl⟩)
    rw [(mem_pattern_of_spelling? hs).1 h]
    intro c hc
    exact bne_iff_ne.1 (List.all_eq_true.1 hentry c hc)
  | none =>
    rintro c hc rfl
    have := isNumeral_of_mem_number (mem_number_of_spelling? h hs) _ hc
    exact absurd this (by decide)

/-- A text of words does not begin with a comment. -/
theorem ne_hash_of_words {c : Char} {cs : List Char}
    (h : ∀ w ∈ scan (c :: cs), ∃ k, w ∈ pattern k) : c ≠ '#' := by
  rintro rfl
  obtain ⟨w, rest, hcs, hscan, hw⟩ := exists_scan_cons (by decide : isBlank '#' = false) cs
  obtain ⟨k, hk⟩ := h w (by rw [hscan]; exact List.mem_cons_self ..)
  rcases hw with ⟨hmark, -⟩ | ⟨hne, -, -⟩
  · exact absurd hmark (by decide)
  · match w, hne with
    | d :: w, _ =>
      rw [List.cons_append] at hcs
      obtain ⟨rfl, -⟩ := List.cons.inj hcs
      exact ne_hash_of_mem_pattern hk _ (List.mem_cons_self ..) rfl

theorem isBlank_of_isSeparator {c : Char} (h : isSeparator c = true) : isBlank c = true := by
  simp only [isSeparator, Bool.or_eq_true, beq_iff_eq] at h
  rcases h with (((rfl | rfl) | rfl) | rfl) | rfl <;> decide

section

variable {cs : List Char} (hsep : ∀ c ∈ cs, isBlank c = true → isSeparator c = true)
  (hwords : ∀ w ∈ scan cs, ∃ k, w ∈ pattern k)

include hsep hwords

/-- Where blanks separate and every word fits a kind, nothing but blanks is passed over. -/
theorem drop_gap : cs.drop (gap false cs) = cs.dropWhile isBlank := by
  induction cs with
  | nil => rfl
  | cons c cs ih =>
    by_cases hblank : isBlank c = true
    · have hrest := ih (fun d hd => hsep d (List.mem_cons_of_mem _ hd))
        (by rwa [scan_cons_of_isBlank hblank] at hwords)
      rw [gap, if_neg Bool.false_ne_true, if_pos (hsep c (List.mem_cons_self ..) hblank),
        List.drop_succ_cons, hrest, List.dropWhile_cons_of_pos hblank]
    · have hseparator : ¬ isSeparator c = true := fun h => hblank (isBlank_of_isSeparator h)
      have hhash : ¬ (c == '#') = true := by
        rw [beq_iff_eq]
        exact ne_hash_of_words hwords
      rw [gap, if_neg Bool.false_ne_true, if_neg hseparator, if_neg hhash, List.drop_zero,
        List.dropWhile_cons_of_neg hblank]

/-- The first lexeme is the first word, and the other words are left. -/
theorem exists_lexeme?_of_drop_gap {c : Char} {rest : List Char}
    (hr : cs.drop (gap false cs) = c :: rest) :
    ∃ k n, lexeme? (c :: rest) = some (k, n) ∧
      scan cs = (c :: rest).take n :: scan ((c :: rest).drop n) ∧
      ∀ d ∈ (c :: rest).drop n, d ∈ cs := by
  have hsubset : ∀ n, ∀ d ∈ (c :: rest).drop n, d ∈ cs := by
    intro n d hd
    rw [← hr] at hd
    exact List.mem_of_mem_drop (List.mem_of_mem_drop hd)
  rw [drop_gap hsep hwords] at hr
  have hblank : isBlank c = false := by
    have := List.head?_dropWhile_not isBlank cs
    rw [hr] at this
    simpa using this
  have hscan : scan cs = scan (c :: rest) := by
    rw [← hr]
    conv_lhs => rw [← List.takeWhile_append_dropWhile (p := isBlank) (l := cs)]
    exact scan_blanks_append (fun d hd => List.all_eq_true.1 List.all_takeWhile d hd) _
  obtain ⟨w, tail, hcs, hfirst, hw⟩ := exists_scan_cons hblank rest
  obtain ⟨k, hk⟩ := hwords w (by rw [hscan, hfirst]; exact List.mem_cons_self ..)
  have hstop : (∃ d, isMark d = true ∧ w = [d]) ∨ startsInner tail = false := by
    rcases hw with ⟨hmark, hw⟩ | ⟨-, -, htail⟩
    · exact .inl ⟨c, hmark, hw⟩
    · exact .inr htail
  obtain ⟨n, hfound, htake, hdrop⟩ := exists_lexeme?_append hk hstop
  rw [← hcs] at hfound htake hdrop
  exact ⟨k, n, hfound, by rw [hscan, hfirst, htake, hdrop], hsubset n⟩

end

/-- Where every word of a text fits a kind, and blanks separate, the tokens are these words. -/
theorem exists_ofTextAt_of_scan {p : Position} {cs : List Char}
    (hsep : ∀ c ∈ cs, isBlank c = true → isSeparator c = true)
    (hwords : ∀ w ∈ scan cs, ∃ k, w ∈ pattern k) :
    ∃ ts, ofTextAt p cs = .ok ts ∧ ts.map (fun t => t.value.toList) = scan cs := by
  fun_induction ofTextAt p cs with
  | case1 p cs before hr =>
    have hblank : cs.dropWhile isBlank = [] := (drop_gap hsep hwords).symm.trans hr
    refine ⟨[], rfl, ?_⟩
    rw [scan_eq_nil_of_blanks, List.map_nil]
    exact List.dropWhile_eq_nil_iff.1 hblank
  | case2 p cs before here c rest hr hl =>
    obtain ⟨k, n, hfound, -⟩ := exists_lexeme?_of_drop_gap hsep hwords hr
    rw [hl] at hfound
    simp at hfound
  | case3 p cs before here c rest hr kind n hl written _ e he ih =>
    obtain ⟨k, m, hfound, hscan, hsubset⟩ := exists_lexeme?_of_drop_gap hsep hwords hr
    obtain ⟨-, rfl⟩ := Prod.mk.inj (Option.some.inj (hl.symm.trans hfound))
    rw [hscan] at hwords
    obtain ⟨ts, hts, -⟩ := ih (fun d hd => hsep d (hsubset d hd)) (List.forall_mem_cons.1 hwords).2
    rw [he] at hts
    simp at hts
  | case4 p cs before here c rest hr kind n hl written _ tokens htokens ih =>
    obtain ⟨k, m, hfound, hscan, hsubset⟩ := exists_lexeme?_of_drop_gap hsep hwords hr
    obtain ⟨-, rfl⟩ := Prod.mk.inj (Option.some.inj (hl.symm.trans hfound))
    rw [hscan] at hwords
    obtain ⟨ts, hts, hvalues⟩ :=
      ih (fun d hd => hsep d (hsubset d hd)) (List.forall_mem_cons.1 hwords).2
    obtain rfl := Except.ok.inj (htokens.symm.trans hts)
    refine ⟨_, rfl, ?_⟩
    rw [List.map_cons, hvalues, hscan, String.toList_ofList]

theorem exists_ofText_of_scan {text : String}
    (hsep : ∀ c ∈ text.toList, isBlank c = true → isSeparator c = true)
    (hwords : ∀ w ∈ scan text.toList, ∃ k, w ∈ pattern k) :
    ∃ ts, Token.ofText text = .ok ts ∧ ts.map (fun t => t.value.toList) = scan text.toList :=
  exists_ofTextAt_of_scan hsep hwords

end NeuralArch.Lexing
