import NeuralArch.Number.FloatText
import NeuralArch.Number.Read
import NeuralArch.Proofs.Lexing.Pattern

/-!
# Numerals as they are written

However a number is laid out, its numeral has digits before the point, without a
needless zero in front, and digits wherever else it has something.  A number in
units of its last place has that place as the last one behind its point, and the
digits of its numeral are those of the number.

* `Numeral.WellFormed` — what holds of every numeral that is written.
* `exists_plain` — the digits before and behind the point.
* `wellFormed_layout` — the numeral of a float is well-formed.
-/

namespace NeuralArch.Number

open Lexing

/-! ## Digits -/

theorem natOfDigits_zeros (k : Nat) (ds : List Char) :
    natOfDigits (List.replicate k '0' ++ ds) = natOfDigits ds := by
  induction k with
  | zero => rfl
  | succ k ih =>
    rw [List.replicate_succ, List.cons_append]
    exact ih

theorem isDigit_of_mem_digitsOfNat {n : Nat} {c : Char} (h : c ∈ digitsOfNat n) :
    c.isDigit = true :=
  Nat.isDigit_of_mem_toDigits (by decide) (by decide) h

theorem digitsOfNat_ne_nil (n : Nat) : digitsOfNat n ≠ [] := by
  intro h
  have hlength := @Nat.length_toDigits_pos 10 n
  rw [← digitsOfNat, h, List.length_nil] at hlength
  exact Nat.lt_irrefl 0 hlength

theorem isDigits_digitsOfNat (n : Nat) : isDigits (digitsOfNat n) = true :=
  mem_digits_iff.2 ⟨digitsOfNat_ne_nil n, fun _ => isDigit_of_mem_digitsOfNat⟩

/-- The digits of a number begin with zero for zero alone. -/
theorem head?_digitsOfNat {n : Nat} (h : 0 < n) : (digitsOfNat n).head? ≠ some '0' := by
  induction n using Nat.strongRecOn with
  | ind n ih =>
    by_cases hlt : n < 10
    · have htable : ∀ m < 10, 0 < m → (digitsOfNat m).head? ≠ some '0' := by decide
      exact htable n hlt h
    · have hsplit : digitsOfNat n = digitsOfNat (n / 10) ++ [Nat.digitChar (n % 10)] := by
        unfold digitsOfNat
        rw [Nat.toDigits_of_base_le (by decide) (by omega)]
      rw [hsplit, List.head?_append_of_ne_nil _ (digitsOfNat_ne_nil _)]
      exact ih (n / 10) (by omega) (by omega)

/-- No digit, or a zero alone, or digits that do not begin with zero. -/
def NoNeedlessZero (ds : List Char) : Prop := ds = ['0'] ∨ ds.head? ≠ some '0'

theorem noNeedlessZero_digitsOfNat (n : Nat) : NoNeedlessZero (digitsOfNat n) := by
  by_cases h : 0 < n
  · exact .inr (head?_digitsOfNat h)
  · obtain rfl : n = 0 := by omega
    exact .inl rfl

/-! ## Numerals -/

/-- A numeral has digits before its point, with no needless zero in front, and nothing but digits
elsewhere. -/
structure Numeral.WellFormed (n : Numeral) : Prop where
  whole : isDigits n.whole = true
  leading : NoNeedlessZero n.whole
  fraction : ∀ c ∈ n.fraction, c.isDigit = true
  power : ∀ p ∈ n.power, isDigits p.2 = true

theorem wellFormed_ofInt (i : Int) : (Numeral.ofInt i).WellFormed :=
  ⟨isDigits_digitsOfNat _, noNeedlessZero_digitsOfNat _, by simp [Numeral.ofInt],
    by simp [Numeral.ofInt]⟩

/-- Zeros are put in front for one digit before the point, and for no more. -/
theorem noNeedlessZero_padded {places n : Nat} (h : 0 < places) {padded : List Char}
    (hpadded : padded =
      List.replicate (places + 1 - (digitsOfNat n).length) '0' ++ digitsOfNat n) :
    NoNeedlessZero (padded.take (padded.length - places)) := by
  by_cases hlong : places < (digitsOfNat n).length
  · have hnone : padded = digitsOfNat n := by
      rw [hpadded, Nat.sub_eq_zero_of_le hlong, List.replicate_zero, List.nil_append]
    have hpos : 0 < n := by
      by_contra hzero
      obtain rfl : n = 0 := by omega
      have hone : (digitsOfNat 0).length = 1 := rfl
      omega
    right
    rw [hnone, List.head?_take, if_neg (by omega)]
    exact head?_digitsOfNat hpos
  · obtain ⟨k, hk⟩ : ∃ k, places + 1 - (digitsOfNat n).length = k + 1 :=
      ⟨places - (digitsOfNat n).length, by omega⟩
    have hone : padded.length - places = 1 := by
      rw [hpadded, List.length_append, List.length_replicate]
      omega
    left
    rw [hone, hpadded, hk]
    rfl

/-- The digits before and behind the point. -/
theorem exists_plain (negative point : Bool) {places : Nat} (h : 0 < places) (n : Nat) :
    ∃ whole fraction,
      plain negative point n (-(places : Int)) = ⟨negative, whole, fraction, none⟩ ∧
      isDigits whole = true ∧ isDigits fraction = true ∧ fraction.length = places ∧
      natOfDigits (whole ++ fraction) = n ∧ NoNeedlessZero whole := by
  have hscale : ¬ (0 : Int) ≤ -(places : Int) := by omega
  have hplaces : (-(-(places : Int))).toNat = places := by omega
  unfold plain
  rw [if_neg hscale]
  simp only [hplaces]
  set padded := List.replicate (places + 1 - (digitsOfNat n).length) '0' ++ digitsOfNat n
    with hpadded
  have hlength : places + 1 ≤ padded.length := by
    rw [hpadded, List.length_append, List.length_replicate]
    omega
  have hdigit : ∀ c ∈ padded, c.isDigit = true := by
    intro c hc
    rcases List.mem_append.1 hc with hc | hc
    · rw [List.eq_of_mem_replicate hc]
      rfl
    · exact isDigit_of_mem_digitsOfNat hc
  refine ⟨_, _, rfl, ?_, ?_, ?_, ?_, noNeedlessZero_padded h hpadded⟩
  · refine mem_digits_iff.2 ⟨?_, fun c hc => hdigit c (List.mem_of_mem_take hc)⟩
    apply List.ne_nil_of_length_pos
    rw [List.length_take]
    omega
  · refine mem_digits_iff.2 ⟨?_, fun c hc => hdigit c (List.mem_of_mem_drop hc)⟩
    apply List.ne_nil_of_length_pos
    rw [List.length_drop]
    omega
  · rw [List.length_drop]
    omega
  · rw [List.take_append_drop, hpadded, natOfDigits_zeros, natOfDigits_digitsOfNat]

theorem wellFormed_plain (negative point : Bool) (n : Nat) (scale : Int) :
    (plain negative point n scale).WellFormed := by
  by_cases hscale : 0 ≤ scale
  · rw [plain, if_pos hscale]
    refine ⟨isDigits_digitsOfNat _, noNeedlessZero_digitsOfNat _, ?_, by simp⟩
    cases point <;> simp
  · obtain ⟨places, rfl⟩ : ∃ places : Nat, scale = -(places : Int) :=
      ⟨(-scale).toNat, by omega⟩
    obtain ⟨whole, fraction, hplain, hwhole, hfraction, -, -, hleading⟩ :=
      exists_plain negative point (by omega : 0 < places) n
    rw [hplain]
    exact ⟨hwhole, hleading, (mem_digits_iff.1 hfraction).2, by simp⟩

theorem wellFormed_scientific (negative : Bool) (n : Nat) (scale : Int) :
    (scientific negative n scale).WellFormed := by
  have hdigits := mem_digits_iff.1 (isDigits_digitsOfNat n)
  unfold scientific
  match hds : digitsOfNat n, hdigits.1 with
  | d :: ds, _ =>
    have hdigit : ∀ c ∈ d :: ds, c.isDigit = true := fun c hc => hdigits.2 c (hds ▸ hc)
    refine ⟨?_, ?_, fun c hc => hdigit c (List.mem_cons_of_mem _ hc), ?_⟩
    · exact mem_digits_iff.2 ⟨List.cons_ne_nil _ _, fun c hc =>
        hdigit c (List.mem_singleton.1 hc ▸ List.mem_cons_self ..)⟩
    · by_cases hzero : d = '0'
      · exact .inl (by rw [hzero]; rfl)
      · exact .inr (by simpa using hzero)
    · rintro p hp
      rw [← Option.mem_some_iff.1 hp]
      exact isDigits_digitsOfNat _

/-- Whatever the style, the numeral of a float is well-formed. -/
theorem wellFormed_layout (s : FloatStyle) (negative : Bool) (m : Magnitude) :
    (s.layout negative m).WellFormed := by
  unfold FloatStyle.layout
  dsimp only
  split
  · exact wellFormed_plain _ _ _ _
  · exact wellFormed_scientific _ _ _

end NeuralArch.Number
