import Mathlib.Computability.Language
import NeuralArch.Number.Read
import NeuralArch.Token.Lexer

/-!
# Token patterns

What the lexemes of each kind look like, as languages over characters: one
spelling for a word or a punctuation mark, and for numbers

    INT      -?[0-9]+
    FLOAT    -?[0-9]+ ( \.[0-9]+ ([eE][+-]?[0-9]+)? | [eE][+-]?[0-9]+ )

* `pattern` — the texts of a kind.
* `take_mem_pattern` — the lexer takes only text that fits the kind it
  reports.
* `fits_of_ofText` — so the tokens of a text fit their kinds.
-/

namespace NeuralArch.Lexing

open Number Token

/-! ## Patterns -/

/-- One character of a class. -/
def char (accept : Char → Bool) : Language Char := {cs | ∃ c, accept c = true ∧ cs = [c]}

/-- A text that may be missing. -/
def optional (l : Language Char) : Language Char := 1 + l

/-- `[0-9]+` -/
def digits : Language Char := {cs | isDigits cs = true}

/-- `-?[0-9]+` -/
def integer : Language Char := optional (char (· == '-')) * digits

/-- `\.[0-9]+` -/
def fraction : Language Char := char (· == '.') * digits

/-- `[eE][+-]?[0-9]+` -/
def exponent : Language Char :=
  char (fun c => c == 'e' || c == 'E') *
    (optional (char fun c => c == '+' || c == '-') * digits)

/-- An integer with a fraction, with an exponent, or with both. -/
def float : Language Char := integer * (fraction * optional exponent) + integer * exponent

/-- The texts of a kind of token. -/
def pattern (k : Kind) : Language Char :=
  match k.spelling? with
  | some s => {s.toList}
  | none => if k = .int then integer else float

/-- A token whose characters are a text of its kind. -/
def Fits (t : Token) : Prop := t.value.toList ∈ pattern t.kind

/-- A token without its place: its kind, and the characters it was written with. -/
def unplaced (t : Token) : Kind × String := (t.kind, t.value)

/-! ## Membership -/

theorem nil_mem_optional (l : Language Char) : [] ∈ optional l := .inl rfl

theorem mem_optional_of_mem {l : Language Char} {cs : List Char} (h : cs ∈ l) :
    cs ∈ optional l := .inr h

theorem mem_digits_iff {cs : List Char} :
    cs ∈ digits ↔ cs ≠ [] ∧ ∀ c ∈ cs, c.isDigit = true := by
  show isDigits cs = true ↔ _
  cases cs <;> simp [isDigits]

theorem mem_pattern_of_spelling? {k : Kind} {s : String} (h : k.spelling? = some s)
    {cs : List Char} : cs ∈ pattern k ↔ cs = s.toList := by
  rw [pattern, h]
  rfl

/-- A token with only one spelling is written that way. -/
theorem Fits.value_eq {t : Token} {s : String} (h : Fits t) (hs : t.kind.spelling? = some s) :
    t.value = s :=
  String.toList_inj.1 ((mem_pattern_of_spelling? hs).1 h)

@[simp] theorem pattern_int : pattern .int = integer := rfl

@[simp] theorem pattern_float : pattern .float = float := rfl

/-! ## What the lexer takes

Every length that the lexer computes is the length of a prefix in the class it
stands for, so the classes concatenate as the lengths add up.
-/

theorem take_digitCount (cs : List Char) :
    cs.take (digitCount cs) = cs.takeWhile Char.isDigit := by
  have h : (cs.takeWhile Char.isDigit ++ cs.dropWhile Char.isDigit).take
      (cs.takeWhile Char.isDigit).length = cs.takeWhile Char.isDigit := List.take_left
  rwa [List.takeWhile_append_dropWhile] at h

theorem take_digitCount_mem {cs : List Char} (h : digitCount cs ≠ 0) :
    cs.take (digitCount cs) ∈ digits := by
  rw [take_digitCount, mem_digits_iff]
  refine ⟨fun hnil => h (by rw [digitCount, hnil]; rfl), fun c hc => ?_⟩
  exact List.all_eq_true.1 List.all_takeWhile c hc

theorem take_integerLength_mem {cs : List Char} (h : integerLength cs ≠ 0) :
    cs.take (integerLength cs) ∈ integer := by
  unfold integerLength at h ⊢
  dsimp only at h ⊢
  by_cases hminus : cs.head? = some '-'
  · rw [if_pos hminus] at h ⊢
    by_cases hdigits : digitCount (cs.drop 1) = 0
    · exact absurd (if_pos hdigits) h
    · rw [if_neg hdigits, List.take_add]
      refine Language.append_mem_mul ?_ (take_digitCount_mem hdigits)
      obtain ⟨tail, rfl⟩ := List.head?_eq_some_iff.1 hminus
      exact mem_optional_of_mem ⟨'-', rfl, rfl⟩
  · rw [if_neg hminus, List.drop_zero] at h ⊢
    by_cases hdigits : digitCount cs = 0
    · exact absurd (if_pos hdigits) h
    · rw [if_neg hdigits, Nat.zero_add]
      exact Language.append_mem_mul (nil_mem_optional _) (take_digitCount_mem hdigits)

theorem take_fractionLength_mem {cs : List Char} (h : fractionLength cs ≠ 0) :
    cs.take (fractionLength cs) ∈ fraction := by
  unfold fractionLength at h ⊢
  split at h
  · next tail =>
    by_cases hdigits : digitCount tail = 0
    · exact absurd (if_pos hdigits) h
    · rw [if_neg hdigits, List.take_succ_cons]
      exact Language.append_mem_mul (a := ['.']) ⟨'.', rfl, rfl⟩
        (take_digitCount_mem hdigits)
  · exact absurd rfl h

theorem take_signLength_mem (cs : List Char) :
    cs.take (signLength cs) ∈ optional (char fun c => c == '+' || c == '-') := by
  unfold signLength
  split
  · next c tail =>
    split
    · next hsign => exact mem_optional_of_mem ⟨c, hsign, rfl⟩
    · exact nil_mem_optional _
  · exact nil_mem_optional _

theorem take_exponentLength_mem {cs : List Char} (h : exponentLength cs ≠ 0) :
    cs.take (exponentLength cs) ∈ exponent := by
  unfold exponentLength at h ⊢
  split at h
  · exact absurd rfl h
  · next c tail =>
    dsimp only at h ⊢
    by_cases hmark : (c == 'e' || c == 'E') = true
    · rw [if_pos hmark] at h ⊢
      by_cases hdigits : digitCount (tail.drop (signLength tail)) = 0
      · exact absurd (if_pos hdigits) h
      · rw [if_neg hdigits, Nat.add_assoc, List.take_add, List.drop_succ_cons, List.drop_zero,
          List.take_add]
        refine Language.append_mem_mul ⟨c, hmark, rfl⟩ ?_
        exact Language.append_mem_mul (take_signLength_mem tail) (take_digitCount_mem hdigits)
    · exact absurd (if_neg hmark) h

theorem take_mem_of_number? {cs : List Char} {k : Kind} {n : Nat}
    (h : number? cs = some (k, n)) : cs.take n ∈ pattern k := by
  unfold number? at h
  dsimp only at h
  split at h
  · simp at h
  · next hwhole =>
    have hinteger := take_integerLength_mem hwhole
    rw [Option.some.injEq, Prod.mk.injEq] at h
    obtain ⟨rfl, rfl⟩ := h
    by_cases hfraction : fractionLength (cs.drop (integerLength cs)) = 0
    · rw [hfraction, Nat.zero_add, Nat.add_zero]
      by_cases hexponent : exponentLength (cs.drop (integerLength cs)) = 0
      · rw [hexponent, if_pos rfl]
        exact hinteger
      · rw [if_neg hexponent, List.take_add]
        exact .inr (Language.append_mem_mul hinteger (take_exponentLength_mem hexponent))
    · rw [if_neg (by omega), ← Nat.add_assoc, List.take_add, List.take_add, List.append_assoc]
      refine .inl (Language.append_mem_mul hinteger
        (Language.append_mem_mul (take_fractionLength_mem hfraction) ?_))
      by_cases hexponent : exponentLength
          (cs.drop (integerLength cs + fractionLength (cs.drop (integerLength cs)))) = 0
      · rw [hexponent, List.take_zero]
        exact nil_mem_optional _
      · exact mem_optional_of_mem (take_exponentLength_mem hexponent)

/-- The better of two readings is one of them. -/
theorem longer_eq_some {best : Option (Kind × Nat)} {candidate found : Kind × Nat}
    (h : longer best candidate = some found) : best = some found ∨ candidate = found := by
  unfold longer at h
  split at h
  · exact .inr (Option.some.inj h)
  · split at h
    · exact .inr (Option.some.inj h)
    · exact .inl h

theorem mem_spellings_iff {k : Kind} {cs : List Char} :
    (k, cs) ∈ spellings ↔ ∃ s, k.spelling? = some s ∧ cs = s.toList := by
  simp only [spellings, List.mem_filterMap, Option.map_eq_some_iff, Prod.mk.injEq]
  constructor
  · rintro ⟨k, -, s, hs, rfl, rfl⟩
    exact ⟨s, hs, rfl⟩
  · rintro ⟨s, hs, rfl⟩
    exact ⟨k, Kind.mem_all k, s, hs, rfl, rfl⟩

theorem take_mem_of_spelled? {cs : List Char} {k : Kind} {n : Nat}
    (h : spelled? cs = some (k, n)) : cs.take n ∈ pattern k := by
  have go : ∀ (table : List (Kind × List Char)) (best : Option (Kind × Nat)),
      (∀ entry ∈ table, entry ∈ spellings) →
      (∀ found ∈ best, cs.take found.2 ∈ pattern found.1) →
      ∀ found ∈ table.foldl (fun best entry =>
        if entry.2.isPrefixOf cs then longer best (entry.1, entry.2.length) else best) best,
        cs.take found.2 ∈ pattern found.1 := by
    intro table
    induction table with
    | nil => exact fun best _ hbest => hbest
    | cons entry table ih =>
      intro best htable hbest
      refine ih _ (fun e he => htable e (List.mem_cons_of_mem _ he)) fun found hfound => ?_
      dsimp only at hfound
      split at hfound
      · next hbegins =>
        rcases longer_eq_some (Option.mem_def.1 hfound) with hf | rfl
        · exact hbest found hf
        · obtain ⟨s, hs, hcs⟩ := mem_spellings_iff.1 (htable entry (List.mem_cons_self ..))
          obtain ⟨tail, rfl⟩ := List.isPrefixOf_iff_prefix.1 hbegins
          rw [List.take_left, mem_pattern_of_spelling? hs, hcs]
      · exact hbest found hfound
  exact go spellings none (fun _ he => he) (by simp) (k, n) h

/-- A lexeme fits its kind. -/
theorem take_mem_pattern {cs : List Char} {k : Kind} {n : Nat}
    (h : lexeme? cs = some (k, n)) : cs.take n ∈ pattern k := by
  rcases Option.or_eq_some_iff.1 h with h | ⟨-, h⟩
  · exact take_mem_of_number? h
  · exact take_mem_of_spelled? h

/-- The tokens of a text fit their kinds. -/
theorem fits_of_ofTextAt {p : Position} {cs : List Char} {ts : List Token}
    (h : ofTextAt p cs = .ok ts) : ∀ t ∈ ts, Fits t := by
  fun_induction ofTextAt p cs generalizing ts with
  | case1 => simp_all
  | case2 => simp at h
  | case3 => simp_all
  | case4 p cs before here c rest hr kind n hl written _ tokens htokens =>
    rename_i ih
    rw [Except.ok.injEq] at h
    subst h
    refine List.forall_mem_cons.2 ⟨?_, ih htokens⟩
    rw [Fits, String.toList_ofList]
    exact take_mem_pattern hl

theorem fits_of_ofText {text : String} {ts : List Token} (h : Token.ofText text = .ok ts) :
    ∀ t ∈ ts, Fits t :=
  fits_of_ofTextAt h

end NeuralArch.Lexing
