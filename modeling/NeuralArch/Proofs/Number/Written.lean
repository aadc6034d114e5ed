import NeuralArch.Proofs.Lexing.Number
import NeuralArch.Proofs.Number.Shortest

/-!
# Numerals as tokens

A well-formed numeral is an integer token if nothing but digits is written, and
a float token if there is a point or a power of ten.  Either way a reader of
floats finds the numeral again, and so does one of integers if there is neither.

* `text_mem_integer`, `text_mem_float`, `plain_mem_float` — the kind of token.
* `readFloat?_text`, `readInt?_text` — what is read is the float of the numeral, or its integer.
-/

namespace NeuralArch.Number

open Lexing

/-- The characters of a power of ten. -/
def powerText : Option (Bool × List Char) → List Char
  | none => []
  | some (true, ds) => 'e' :: '-' :: ds
  | some (false, ds) => 'e' :: ds

/-- The characters of the digits behind a point. -/
def fractionText (ds : List Char) : List Char := if ds.isEmpty then [] else '.' :: ds

theorem Numeral.text_eq (n : Numeral) :
    n.text false = (if n.negative then ['-'] else []) ++
      (n.whole ++ (fractionText n.fraction ++ powerText n.power)) := by
  rw [Numeral.text, List.append_assoc, List.append_assoc]
  cases n.power with
  | none => rfl
  | some p => cases p.1 <;> rfl

namespace Numeral.WellFormed

variable {n : Numeral}

theorem signed_mem_integer (h : n.WellFormed) :
    (if n.negative then ['-'] else []) ++ n.whole ∈ integer := by
  refine mem_integer_iff.2 ⟨n.whole, h.whole, ?_⟩
  cases n.negative with
  | false => exact .inl rfl
  | true => exact .inr rfl

theorem fractionText_mem (h : n.WellFormed) (hne : n.fraction ≠ []) :
    fractionText n.fraction ∈ Lexing.fraction := by
  rw [fractionText, if_neg (by simpa using hne)]
  exact Language.append_mem_mul (a := ['.']) ⟨'.', rfl, rfl⟩ (mem_digits_iff.2 ⟨hne, h.fraction⟩)

theorem powerText_mem (h : n.WellFormed) (hpower : n.power.isSome = true) :
    powerText n.power ∈ exponent := by
  obtain ⟨⟨negative, ds⟩, hp⟩ := Option.isSome_iff_exists.1 hpower
  have hds : ds ∈ digits := h.power _ hp
  have hletter : ['e'] ∈ char fun c => c == 'e' || c == 'E' := ⟨'e', rfl, rfl⟩
  rw [hp]
  cases negative with
  | false =>
    exact Language.append_mem_mul hletter (Language.append_mem_mul (nil_mem_optional _) hds)
  | true =>
    have hminus : ['-'] ∈ optional (char fun c => c == '+' || c == '-') :=
      mem_optional_of_mem ⟨'-', rfl, rfl⟩
    exact Language.append_mem_mul hletter (Language.append_mem_mul hminus hds)

theorem powerText_mem_optional (h : n.WellFormed) : powerText n.power ∈ optional exponent := by
  cases hpower : n.power with
  | none => exact nil_mem_optional _
  | some p =>
    have := h.powerText_mem (by rw [hpower]; rfl)
    rw [hpower] at this
    exact mem_optional_of_mem this

theorem text_mem_integer (h : n.WellFormed) (hfraction : n.fraction = [])
    (hpower : n.power = none) : n.text false ∈ integer := by
  rw [n.text_eq, hfraction, hpower, fractionText, powerText]
  simpa using h.signed_mem_integer

theorem text_mem_float (h : n.WellFormed) (hfloat : n.fraction ≠ [] ∨ n.power.isSome = true) :
    n.text false ∈ float := by
  rw [n.text_eq, ← List.append_assoc]
  by_cases hfraction : n.fraction = []
  · rw [hfraction]
    exact .inr (Language.append_mem_mul h.signed_mem_integer
      (h.powerText_mem (hfloat.resolve_left (absurd hfraction))))
  · exact .inl (Language.append_mem_mul h.signed_mem_integer
      (Language.append_mem_mul (h.fractionText_mem hfraction) h.powerText_mem_optional))

theorem splitSign_text (h : n.WellFormed) : splitSign (n.text false) =
    (n.negative, n.whole ++ (fractionText n.fraction ++ powerText n.power)) := by
  rw [n.text_eq]
  cases n.negative with
  | false => exact splitSign_digits h.whole _
  | true => exact splitSign_minus _

theorem readPower?_powerText (h : n.WellFormed) : readPower? (powerText n.power) = some n.power := by
  cases hpower : n.power with
  | none => rfl
  | some p =>
    obtain ⟨negative, ds⟩ := p
    have hds : isDigits ds = true := h.power _ hpower
    cases negative with
    | false =>
      have hsplit := splitSign_digits hds []
      rw [List.append_nil] at hsplit
      rw [powerText, readPower?, hsplit]
      simp [hds]
    | true =>
      rw [powerText, readPower?, splitSign_minus]
      simp [hds]

theorem head?_powerText {power : Option (Bool × List Char)} :
    ∀ c ∈ (powerText power).head?, c = 'e' := by
  intro c hc
  match power, hc with
  | some (true, _), hc => exact (Option.some.inj hc).symm
  | some (false, _), hc => exact (Option.some.inj hc).symm

/-- A reader finds the digits before and behind the point, and the power. -/
theorem readDecimal?_text (h : n.WellFormed) :
    readDecimal? (n.whole ++ (fractionText n.fraction ++ powerText n.power)) =
      some ⟨false, n.whole, n.fraction, n.power⟩ := by
  have hpower : ∀ c ∈ (powerText n.power).head?, c.isDigit = false := by
    intro c hc
    rw [head?_powerText c hc]
    rfl
  by_cases hfraction : n.fraction = []
  · have hdrop := dropWhile_digits h.whole hpower
    have hno : ∀ cs, powerText n.power ≠ '.' :: cs := by
      intro cs hcs
      have := head?_powerText '.' (by rw [hcs]; rfl)
      exact absurd this (by decide)
    rw [hfraction, fractionText, List.isEmpty_nil, if_pos rfl, List.nil_append, readDecimal?,
      takeWhile_digits h.whole hpower, hdrop, isEmpty_of_isDigits h.whole]
    split
    next hmatch =>
      split at hmatch
      · next hcs => exact absurd hcs (hno _)
      · obtain ⟨rfl, rfl⟩ := Prod.mk.inj hmatch
        rw [h.readPower?_powerText]
        rfl
  · have hdigits : isDigits n.fraction = true := mem_digits_iff.2 ⟨hfraction, h.fraction⟩
    have hpoint : ∀ c ∈ ('.' :: n.fraction ++ powerText n.power).head?, c.isDigit = false := by
      rintro c hc
      obtain rfl := Option.some.inj hc
      rfl
    have htake := takeWhile_digits hdigits hpower
    have hdrop := dropWhile_digits hdigits hpower
    rw [fractionText, if_neg (by simpa using hfraction), readDecimal?,
      takeWhile_digits h.whole hpoint, dropWhile_digits h.whole hpoint, List.cons_append,
      isEmpty_of_isDigits h.whole]
    simp [htake, hdrop, h.readPower?_powerText]

end Numeral.WellFormed

/-- With places behind its point a number is a float. -/
theorem plain_mem_float (negative : Bool) {places : Nat} (h : 0 < places) (n : Nat) :
    (plain negative false n (-(places : Int))).text false ∈ float := by
  refine (wellFormed_plain _ _ _ _).text_mem_float (.inl ?_)
  obtain ⟨whole, fraction, hplain, -, hfraction, -⟩ := exists_plain negative false h n
  rw [hplain]
  exact (mem_digits_iff.1 hfraction).1

/-- The float of a numeral is read from its text. -/
theorem readFloat?_text {n : Numeral} (h : n.WellFormed) :
    readFloat? (String.ofList (n.text false)) = some n.toFloat := by
  have hsplit := h.splitSign_text
  rw [← String.toList_ofList (l := n.text false)] at hsplit
  rw [readFloat?_eq hsplit h.whole, h.readDecimal?_text, Option.map_some]
  rfl

/-- The integer of a numeral of digits alone is read from its text. -/
theorem readInt?_text {n : Numeral} (h : n.WellFormed) (hfraction : n.fraction = [])
    (hpower : n.power = none) : readInt? (n.text false) = some n.toInt := by
  have hwhole : n.whole ++ (fractionText n.fraction ++ powerText n.power) = n.whole := by
    rw [hfraction, hpower, fractionText, powerText]
    simp
  rw [readInt?, h.splitSign_text, hwhole]
  dsimp only
  rw [if_pos h.whole, Numeral.toInt]

end NeuralArch.Number
