import NeuralArch.Json.Printer
import NeuralArch.Json.Reader
import NeuralArch.Proofs.Lexing.Number
import NeuralArch.Proofs.Number.Layout

/-!
# Literals that are printed and read back

A string is read back from its quotes, whatever its characters: each is written
as itself or as an escape that stands for it.  A numeral is read back as it is
made, sign, digits and power, as far as nothing behind it continues it.  In
printed JSON that is so: a value stands before a comma, at the end of a line or
at the end of the text.

* `string?_stringText` — string literals.
* `number?_text` — numerals.
-/

namespace NeuralArch.Json

open Number Lexing

/-! ## Strings -/

/-- The letter behind a backslash stands for the character that it was written for. -/
theorem unescape?_shortEscape {c letter : Char} (h : shortEscape? c = some letter) :
    unescape? letter = some c ∧ letter ≠ 'u' := by
  unfold shortEscape? at h
  split at h <;> first | (obtain rfl := Option.some.inj h; decide) | simp at h

theorem pieces?_escape {letter c : Char} (h : unescape? letter = some c) (hu : letter ≠ 'u')
    {cs rest : List Char} {ps : List Piece} (hcs : pieces? cs = some (ps, rest)) :
    pieces? ('\\' :: letter :: cs) = some (.char c :: ps, rest) := by
  rw [pieces?.eq_3 letter cs fun _ _ _ _ _ heq _ => hu heq, h, hcs]

theorem pieces?_unit {a b c d : Char} {n : ℕ} (h : hexUnit? a b c d = some n)
    {cs rest : List Char} {ps : List Piece} (hcs : pieces? cs = some (ps, rest)) :
    pieces? ('\\' :: 'u' :: a :: b :: c :: d :: cs) = some (.unit n :: ps, rest) := by
  rw [pieces?, h, hcs]

theorem pieces?_plain {c : Char} (hquote : c ≠ '"') (hescape : c ≠ '\\') (h : ¬ c.toNat < 0x20)
    {cs rest : List Char} {ps : List Piece} (hcs : pieces? cs = some (ps, rest)) :
    pieces? (c :: cs) = some (.char c :: ps, rest) := by
  rw [pieces?.eq_4 c cs hquote (fun _ _ _ _ _ heq _ => hescape heq)
    (fun _ _ heq _ => hescape heq), if_neg h, hcs]

/-- A control character is written by its number. -/
theorem hexUnit?_control {n : ℕ} (h : n < 0x20) :
    hexUnit? '0' '0' (Nat.digitChar (n / 16)) (Nat.digitChar (n % 16)) = some n := by
  have htable : ∀ n < 0x20,
      hexUnit? '0' '0' (Nat.digitChar (n / 16)) (Nat.digitChar (n % 16)) = some n := by decide
  exact htable n h

/-- What a character is written as is read as one piece, which stands for the character. -/
theorem exists_pieces?_escapeChar (c : Char) {cs rest : List Char} {ps : List Piece}
    (hcs : pieces? cs = some (ps, rest)) :
    ∃ p, pieces? (escapeChar c ++ cs) = some (p :: ps, rest) ∧
      join? none (p :: ps) = (join? none ps).map (c :: ·) := by
  unfold escapeChar
  cases hshort : shortEscape? c with
  | some letter =>
    obtain ⟨hletter, hu⟩ := unescape?_shortEscape hshort
    exact ⟨.char c, pieces?_escape hletter hu hcs, rfl⟩
  | none =>
    by_cases hcontrol : c.toNat < 0x20
    · have hunit := hexUnit?_control hcontrol
      refine ⟨.unit c.toNat, ?_, ?_⟩
      · simp only [if_pos hcontrol]
        exact pieces?_unit hunit hcs
      · have hhigh : isHighSurrogate c.toNat = false := by
          simp only [isHighSurrogate, Bool.and_eq_false_iff, decide_eq_false_iff_not]
          omega
        have hlow : isLowSurrogate c.toNat = false := by
          simp only [isLowSurrogate, Bool.and_eq_false_iff, decide_eq_false_iff_not]
          omega
        simp [join?, hhigh, hlow]
    · refine ⟨.char c, ?_, rfl⟩
      simp only [if_neg hcontrol]
      refine pieces?_plain ?_ ?_ hcontrol hcs
      · rintro rfl
        simp [shortEscape?] at hshort
      · rintro rfl
        simp [shortEscape?] at hshort

theorem exists_pieces?_quoted (cs rest : List Char) :
    ∃ ps, pieces? (cs.flatMap escapeChar ++ '"' :: rest) = some (ps, rest) ∧
      join? none ps = some cs := by
  induction cs with
  | nil => exact ⟨[], rfl, rfl⟩
  | cons c cs ih =>
    obtain ⟨ps, hps, hjoin⟩ := ih
    obtain ⟨p, hp, hpjoin⟩ := exists_pieces?_escapeChar c hps
    refine ⟨p :: ps, ?_, ?_⟩
    · rw [List.flatMap_cons, List.append_assoc]
      exact hp
    · rw [hpjoin, hjoin]
      rfl

/-- A string literal, with its opening quote, is read back behind the quote. -/
theorem exists_stringText (text : Option String) (rest : List Char) :
    ∃ cs, stringText text ++ rest = '"' :: cs ∧ string? cs = some (text, rest) := by
  cases text with
  | some s =>
    obtain ⟨ps, hps, hjoin⟩ := exists_pieces?_quoted s.toList rest
    refine ⟨s.toList.flatMap escapeChar ++ '"' :: rest, ?_, ?_⟩
    · simp [stringText, quoted]
    · simp [string?, hps, hjoin]
  | none =>
    refine ⟨'\\' :: 'u' :: 'd' :: '8' :: '0' :: '0' :: '"' :: rest, rfl, ?_⟩
    have hunit : hexUnit? 'd' '8' '0' '0' = some 0xD800 := by decide
    have hpieces := pieces?_unit hunit (show pieces? ('"' :: rest) = some ([], rest) from rfl)
    rw [string?, hpieces]
    rfl

/-! ## Numerals -/

/-- What may stand behind a value: nothing, a comma, or the end of a line. -/
def Stops (cs : List Char) : Prop := ∀ c ∈ cs.head?, c = ',' ∨ c = '\n'

theorem stops_nil : Stops [] := by simp [Stops]

theorem Stops.isDigit {cs : List Char} (h : Stops cs) : ∀ c ∈ cs.head?, c.isDigit = false := by
  intro c hc
  rcases h c hc with rfl | rfl <;> rfl

theorem digits?_append {ds cs : List Char} (h : isDigits ds = true)
    (hcs : ∀ c ∈ cs.head?, c.isDigit = false) : digits? (ds ++ cs) = some (ds, cs) := by
  rw [digits?, takeWhile_digits h hcs, dropWhile_digits h hcs, isEmpty_of_isDigits h]
  rfl

theorem whole?_append {ds cs : List Char} (h : isDigits ds = true) (hzero : NoNeedlessZero ds)
    (hcs : ∀ c ∈ cs.head?, c.isDigit = false) : whole? (ds ++ cs) = some (ds, cs) := by
  obtain rfl | hhead := hzero
  · rfl
  · obtain ⟨d, rest, rfl, -⟩ := exists_cons_of_isDigits h
    have hne : d ≠ '0' := fun heq => hhead (by rw [heq]; rfl)
    rw [← digits?_append h hcs]
    unfold whole?
    split
    · next heq => exact absurd (List.cons.inj heq).1 hne
    · rfl

theorem fraction?_append {fraction cs : List Char} (h : ∀ c ∈ fraction, c.isDigit = true)
    (hcs : ∀ c ∈ cs.head?, c.isDigit = false ∧ c ≠ '.') :
    fraction? ((if fraction.isEmpty then [] else '.' :: fraction) ++ cs) = some (fraction, cs) := by
  match fraction with
  | [] =>
    match cs with
    | [] => rfl
    | c :: cs =>
      show fraction? (c :: cs) = _
      unfold fraction?
      split
      · next heq => exact absurd (List.cons.inj heq).1 (hcs c rfl).2
      · rfl
  | d :: ds =>
    have hdigits : isDigits (d :: ds) = true := mem_digits_iff.2 ⟨List.cons_ne_nil _ _, h⟩
    exact digits?_append hdigits fun c hc => (hcs c hc).1

/-- A power of ten as it is written, with the sign that shows that it is not negative. -/
def powerText : Option (Bool × List Char) → List Char
  | none => []
  | some (true, digits) => 'e' :: '-' :: digits
  | some (false, digits) => 'e' :: '+' :: digits

theorem head_powerText (power : Option (Bool × List Char)) {rest : List Char} (hrest : Stops rest) :
    ∀ c ∈ (powerText power ++ rest).head?, c.isDigit = false ∧ c ≠ '.' := by
  intro c hc
  match power with
  | none => rcases hrest c hc with rfl | rfl <;> decide
  | some (true, _) =>
    obtain rfl := Option.some.inj hc
    decide
  | some (false, _) =>
    obtain rfl := Option.some.inj hc
    decide

theorem power?_append {power : Option (Bool × List Char)}
    (h : ∀ p ∈ power, isDigits p.2 = true) {rest : List Char} (hrest : Stops rest) :
    power? (powerText power ++ rest) = some (power, rest) := by
  match power with
  | none =>
    match rest with
    | [] => rfl
    | c :: cs => obtain rfl | rfl := hrest c rfl <;> rfl
  | some (true, digits) =>
    have hdigits := digits?_append (h _ rfl) hrest.isDigit
    show (digits? (digits ++ rest)).map _ = _
    rw [hdigits]
    rfl
  | some (false, digits) =>
    have hdigits := digits?_append (h _ rfl) hrest.isDigit
    show (digits? (digits ++ rest)).map _ = _
    rw [hdigits]
    rfl

theorem text_eq (n : Numeral) :
    n.text true = (if n.negative then ['-'] else []) ++ n.whole ++
      (if n.fraction.isEmpty then [] else '.' :: n.fraction) ++ powerText n.power := by
  obtain ⟨negative, whole, fraction, power⟩ := n
  match power with
  | none => rfl
  | some (true, _) => rfl
  | some (false, _) => rfl

/-- A numeral begins with a minus or a digit. -/
theorem exists_cons_text {n : Numeral} (h : n.WellFormed) :
    ∃ c cs, n.text true = c :: cs ∧ (c = '-' ∨ c.isDigit = true) := by
  obtain ⟨d, ds, hwhole, hd⟩ := exists_cons_of_isDigits h.whole
  rw [text_eq, hwhole]
  cases n.negative with
  | true => exact ⟨'-', _, rfl, .inl rfl⟩
  | false => exact ⟨d, _, rfl, .inr hd⟩

/-- A number behind its sign. -/
def unsigned? (negative : Bool) (cs : List Char) : Option (Numeral × List Char) := do
  let (whole, cs) ← whole? cs
  let (fraction, cs) ← fraction? cs
  let (power, cs) ← power? cs
  return (⟨negative, whole, fraction, power⟩, cs)

theorem number?_of_ne {c : Char} (h : c ≠ '-') (cs : List Char) :
    number? (c :: cs) = unsigned? false (c :: cs) := by
  unfold number?
  split
  next heq =>
  split at heq
  · next hcons => exact absurd (List.cons.inj hcons).1 h
  · obtain ⟨rfl, rfl⟩ := Prod.mk.inj heq
    rfl

/-- A numeral is read back. -/
theorem number?_text {n : Numeral} (h : n.WellFormed) {rest : List Char} (hrest : Stops rest) :
    number? (n.text true ++ rest) = some (n, rest) := by
  have hpower := power?_append h.power hrest
  have hhead := head_powerText n.power hrest
  have hfraction := fraction?_append h.fraction hhead
  set behindPoint := (if n.fraction.isEmpty then [] else '.' :: n.fraction) ++
    (powerText n.power ++ rest) with hbehind
  have hpoint : ∀ c ∈ behindPoint.head?, c.isDigit = false := by
    intro c hc
    rw [hbehind] at hc
    by_cases hempty : n.fraction.isEmpty
    · rw [if_pos hempty] at hc
      exact (hhead c hc).1
    · rw [if_neg hempty] at hc
      obtain rfl := Option.some.inj hc
      rfl
  have hwhole := whole?_append h.whole h.leading hpoint
  have hunsigned : unsigned? n.negative (n.whole ++ behindPoint) = some (n, rest) := by
    rw [unsigned?]
    simp only [hwhole, hfraction, hpower, Option.bind_eq_bind, Option.bind_some]
    rfl
  have htext : n.text true ++ rest =
      (if n.negative then ['-'] else []) ++ (n.whole ++ behindPoint) := by
    rw [text_eq]
    simp only [hbehind, List.append_assoc]
  rw [htext]
  cases hneg : n.negative with
  | true =>
    rw [hneg] at hunsigned
    exact hunsigned
  | false =>
    obtain ⟨d, ds, hds, hd⟩ := exists_cons_of_isDigits h.whole
    rw [hneg, hds] at hunsigned
    rw [hds]
    exact (number?_of_ne (isDigit_ne hd rfl) _).trans hunsigned

end NeuralArch.Json
