import NeuralArch.Proofs.Layout.Spread
import NeuralArch.Proofs.Number.OneDigit
import NeuralArch.Proofs.Sampling.Range
import NeuralArch.Proofs.Sampling.Solid

/-!
# What is sampled is one token

Whatever a sampler writes is one number token: an integer has digits alone, and
a float that is written with places has a point, one that is written with one
digit has a power of ten.  Only what is not finite would be written otherwise;
and of finite ends and constants nothing else comes.

* `Sampler.Finite` — the samplers whose parameters are numbers.
* `Sampler.Writes` — what a sampler writes, without the source.
* `sample_isToken` — the text is one token, of the kind of the sampler.
-/

namespace NeuralArch

open Number Lexing Layout

/-! ## Texts -/

namespace Number

/-- The text of an integer is that of its numeral. -/
theorem toList_intText (i : Int64) :
    (Sampler.intText i).toList = (Numeral.ofInt i.toInt).text false := by
  have hnat (n : Nat) : (Nat.repr n).toList = digitsOfNat n := by rw [Nat.toList_repr]; rfl
  show (Int.repr i.toInt).toList = _
  cases i.toInt with
  | ofNat n =>
    show (Nat.repr n).toList = _
    rw [hnat, Numeral.text_eq]
    simp [Numeral.ofInt, fractionText, powerText]
  | negSucc n =>
    show ("-" ++ Nat.repr (n + 1)).toList = _
    rw [String.toList_append, hnat, Numeral.text_eq]
    simp [Numeral.ofInt, fractionText, powerText]

theorem intText_mem_integer (i : Int64) : (Sampler.intText i).toList ∈ integer := by
  rw [toList_intText]
  exact (wellFormed_ofInt _).text_mem_integer rfl rfl

theorem fixed_mem_float {places : Nat} (hplaces : 0 < places) {x : Float}
    (hx : x.isFinite = true) : (fixed places x).toList ∈ Lexing.float := by
  obtain ⟨negative, m, hclass⟩ := isFinite_iff_class.1 hx
  rw [fixed, hclass]
  dsimp only
  rw [String.toList_ofList]
  exact plain_mem_float negative hplaces _

theorem oneDigit_mem_float {x : Float} (hx : x.isFinite = true) :
    (oneDigit x).toList ∈ Lexing.float := by
  obtain ⟨negative, m, hclass⟩ := isFinite_iff_class.1 hx
  obtain ⟨d, k, -, htext, -⟩ := exists_oneDigit hclass
  rw [htext, String.toList_ofList]
  exact (wellFormed_scientific _ _ _).text_mem_float (.inr rfl)

end Number

/-! ## Draws -/

namespace Sampler

/-- Whether the parameters of a sampler are numbers. -/
def Finite : Sampler → Prop
  | uniform min max _ => min.isFinite = true ∧ max.isFinite = true
  | scientific values => ∀ x ∈ values, x.isFinite = true
  | _ => True

/-- The kind of token that a sampler writes. -/
def kind : Sampler → Token.Kind
  | choice _ | intRange _ _ => .int
  | uniform _ _ _ | scientific _ => .float

/-- What a sampler writes, without the source: a listed number or the text for none, or a number
of the range, which is the lower end if the ends are not in order. -/
inductive Writes : Sampler → String → Prop
  | choice {values : List Int64} {i : Int64} (hmem : i ∈ values) :
      Writes (.choice values) (intText i)
  | noChoice : Writes (.choice []) "1"
  | uniform {min max x : Float} {decimals : Nat} {m M p : ℚ} (hmin : toRat? min = some m)
      (hmax : toRat? max = some M) (hx : toRat? x = some p) (hlow : m ≤ p) (hhigh : p ≤ m ⊔ M) :
      Writes (.uniform min max decimals) (fixed (Nat.max decimals 1) x)
  | scientific {values : List Float} {x : Float} (hmem : x ∈ values) :
      Writes (.scientific values) (oneDigit x)
  | noScientific : Writes (.scientific []) "1e-3"
  | intRange {min max i : Int64} (hlow : min ≤ i) (hhigh : min ≤ max → i ≤ max) :
      Writes (.intRange min max) (intText i)

variable {σ : Type} [RandomSource σ]

/-- A listed number is written, or the text for none. -/
theorem writes_of_choose {α : Type} {patience : Nat} {values : List α} {s t : σ} {v : Option α}
    (h : Draw.choose patience values s = .done (v, t)) :
    (∃ x ∈ values, v = some x) ∨ values = [] ∧ v = none := by
  by_cases hnil : values = []
  · subst hnil
    exact .inr ⟨rfl, (Draw.pure_eq_done.1 h).1.symm⟩
  · exact .inl ((Draw.gives_choose patience hnil).of_done h)

theorem writes_of_sample {sampler : Sampler} (hfinite : sampler.Finite) {patience : Nat}
    {source rest : σ} {text : String}
    (h : sampler.sample patience source = .done (text, rest)) : sampler.Writes text := by
  cases sampler with
  | choice values =>
    obtain ⟨v, _, hv, htext⟩ := Draw.bind_eq_done.1 h
    obtain ⟨rfl, -⟩ := Draw.pure_eq_done.1 htext
    obtain ⟨i, hi, rfl⟩ | ⟨rfl, rfl⟩ := writes_of_choose hv
    · exact .choice hi
    · exact .noChoice
  | uniform min max decimals =>
    obtain ⟨m, hm⟩ := exists_toRat?_iff.2 hfinite.1
    obtain ⟨M, hM⟩ := exists_toRat?_iff.2 hfinite.2
    obtain ⟨x, _, hx, htext⟩ := Draw.bind_eq_done.1 h
    obtain ⟨rfl, -⟩ := Draw.pure_eq_done.1 htext
    obtain ⟨p, hp, hlow, hhigh⟩ := Draw.float_between hm hM hx
    exact .uniform hm hM hp hlow hhigh
  | scientific values =>
    obtain ⟨v, _, hv, htext⟩ := Draw.bind_eq_done.1 h
    obtain ⟨rfl, -⟩ := Draw.pure_eq_done.1 htext
    obtain ⟨x, hx, rfl⟩ | ⟨rfl, rfl⟩ := writes_of_choose hv
    · exact .scientific hx
    · exact .noScientific
  | intRange min max =>
    obtain ⟨i, _, hi, htext⟩ := Draw.bind_eq_done.1 h
    obtain ⟨rfl, -⟩ := Draw.pure_eq_done.1 htext
    obtain ⟨hlow, hhigh⟩ := (Draw.gives_integer_between patience min max).of_done hi
    exact .intRange hlow hhigh

/-! ## Tokens -/

theorem Writes.mem_pattern {sampler : Sampler} (hfinite : sampler.Finite) {text : String}
    (h : sampler.Writes text) : text.toList ∈ pattern sampler.kind := by
  cases h with
  | choice => exact intText_mem_integer _
  | noChoice => exact intText_mem_integer 1
  | uniform _ _ hx =>
    exact fixed_mem_float (Nat.le_max_right _ 1) (exists_toRat?_iff.1 ⟨_, hx⟩)
  | scientific hmem => exact oneDigit_mem_float (hfinite _ hmem)
  | noScientific => exact (wellFormed_scientific false 1 (-3)).text_mem_float (.inr rfl)
  | intRange => exact intText_mem_integer _

/-- Whatever the source is, what a sampler of finite parameters writes is read as one token: all
of the text, an integer from choices and ranges of integers and a float from the others. -/
theorem sample_isToken {sampler : Sampler} (hfinite : sampler.Finite) {patience : Nat}
    {source rest : σ} {text : String}
    (h : sampler.sample patience source = .done (text, rest)) :
    ∃ t, Token.ofText text = .ok [t] ∧ t.value = text ∧ t.kind = sampler.kind := by
  obtain ⟨pos, htoken⟩ := isToken_iff.2 ((writes_of_sample hfinite h).mem_pattern hfinite)
  exact ⟨_, htoken, rfl, rfl⟩

theorem sample_isToken_range : (uniform (-0.25) 0.75 2).Finite ∧ ∃ rest,
    (uniform (-0.25) 0.75 2).sample 1 (WordSource.ofWords [0xFFFFFFFFFFFFFFFF]) =
      .done ("0.75", rest) ∧
    ∃ t, Token.ofText "0.75" = .ok [t] ∧ t.value = "0.75" ∧ t.kind = .float := by
  have hfinite : (uniform (-0.25) 0.75 2).Finite := by constructor <;> rfl
  obtain ⟨rest, hdone⟩ : ∃ rest, (uniform (-0.25) 0.75 2).sample 1
      (WordSource.ofWords [0xFFFFFFFFFFFFFFFF]) = .done ("0.75", rest) :=
    Draw.exists_rest (by decide +kernel)
  exact ⟨hfinite, rest, hdone, sample_isToken hfinite hdone⟩

end Sampler

end NeuralArch
