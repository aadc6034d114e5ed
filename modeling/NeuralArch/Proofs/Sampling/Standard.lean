import NeuralArch.Proofs.Lexing.Longest
import NeuralArch.Proofs.Sampling.Uniform
import NeuralArch.Token
import NeuralArch.Validation

/-!
# The built-in samplers and rules agree

Each parameter that is given a number has a sampler of its own, and whatever
that writes is a number that the built-in rules admit for the parameter.  The
samplers that choose have finitely many texts; those of a range are checked at
its ends.

* `ValidNumber` — a number that a parameter may be given.
* `gives_sample` — what is sampled for a parameter is one.
-/

namespace NeuralArch

open Number Token Lexing Draw

/-- A text that is a number, and of a kind that can be given to a parameter: it breaks no range,
and 64 bits hold it if it is an integer. -/
structure ValidNumber (r : RuleTable) (param text : String) : Prop where
  number : ∃ k : Kind, k.isNumber = true ∧ text.toList ∈ pattern k
  inRange : r.violation? param text = none
  readable : text.toList ∈ pattern .int → (readInt64? text).isSome = true

/-- A check that a text is such a number. -/
def isValidNumber (r : RuleTable) (param text : String) : Bool :=
  (match lexeme? text.toList with
    | some (k, n) => k.isNumber && n == text.toList.length &&
        (k != .int || (readInt64? text).isSome)
    | none => false) && (r.violation? param text).isNone

theorem validNumber_of_check {r : RuleTable} {param text : String}
    (h : isValidNumber r param text = true) : ValidNumber r param text := by
  rw [isValidNumber, Bool.and_eq_true, Option.isNone_iff_eq_none] at h
  obtain ⟨h, hrange⟩ := h
  split at h
  · next k n hlexeme =>
    simp only [Bool.and_eq_true, beq_iff_eq, Bool.or_eq_true, bne_iff_ne] at h
    obtain ⟨⟨hnumber, rfl⟩, hread⟩ := h
    have hpattern := take_mem_pattern hlexeme
    rw [List.take_length] at hpattern
    refine ⟨⟨k, hnumber, hpattern⟩, hrange, fun hint => ?_⟩
    exact hread.resolve_left fun hne => hne (pattern_injective hpattern hint)
  · simp at h

/-! ## Ranges -/

/-- A range of floats, with its scale, the places that are written, and the digits at the two
ends. -/
structure UniformRange where
  min : Float
  max : Float
  scale : Float
  places : Fin 23
  least : Nat
  greatest : Nat

/-- The ranges of the built-in samplers. -/
def standardUniformRanges : List UniformRange :=
  [⟨0.1, 0.5, .ofBits 4600877379321698716, 3, 100, 500⟩,
   ⟨0.1, 0.3, .ofBits 4596373779694328219, 2, 10, 30⟩,
   ⟨0.9, 0.99, .ofBits 4591149604126578441, 2, 90, 99⟩,
   ⟨0.5, 1.5, .ofBits 4607182418800017409, 2, 50, 150⟩]

namespace UniformRange

/-- The draws of a range lie between its ends, and what is written can be read. -/
structure Regular (u : UniformRange) : Prop where
  spans : Spans u.min u.max u.scale u.places u.least u.greatest
  places_pos : 0 < u.places.val
  greatest_lt : u.greatest < 2 ^ 53

theorem regular_of_mem : ∀ u ∈ standardUniformRanges, u.Regular := by
  simp only [standardUniformRanges, List.forall_mem_cons]
  refine ⟨?_, ?_, ?_, ?_, by simp⟩
  all_goals
    refine ⟨?_, by decide, by decide⟩
    constructor <;> rfl

/-- Whether the rules of a parameter admit what the two ends are written as. -/
def fits (u : UniformRange) (r : RuleTable) (param : String) : Bool :=
  match r.range? param with
  | some (.float min max) =>
    min ≤ nearest false u.least (-(u.places.val : Int)) &&
      nearest false u.greatest (-(u.places.val : Int)) < (ParamRange.float min max).upper
  | _ => false

/-- Then they admit all that is written. -/
theorem Regular.validNumber {u : UniformRange} (h : u.Regular) {r : RuleTable} {param : String}
    (hfits : u.fits r param = true) {n : Nat} (hleast : u.least ≤ n) (hgreatest : n ≤ u.greatest) :
    ValidNumber r param (decimalText u.places n) := by
  have hfloat := decimalText_mem_float h.places_pos n
  refine ⟨⟨.float, rfl, hfloat⟩, ?_, fun hint => ?_⟩
  · unfold fits at hfits
    split at hfits
    · next min max hrange =>
      rw [Bool.and_eq_true, decide_eq_true_eq, decide_eq_true_eq] at hfits
      obtain ⟨x, hx, hmin, hupper⟩ := readFloat?_decimalText_between hleast hgreatest
        h.greatest_lt h.places_pos hfits.1 hfits.2
      rw [RuleTable.violation?, hrange]
      dsimp only
      rw [hx]
      dsimp only
      rw [if_pos ⟨hmin, hupper⟩]
    · simp at hfits
  · exact absurd hint (not_mem_integer_of_mem_float hfloat)

end UniformRange

/-! ## Samplers -/

variable {σ : Type} [RandomSource σ]

/-- Whether whatever a sampler writes is a valid number for a parameter. -/
def Sampler.suits (r : RuleTable) (param : String) : Sampler → Bool
  | .choice values =>
    !values.isEmpty && values.all fun v => isValidNumber r param (intText v)
  | .scientific values =>
    !values.isEmpty && values.all fun x => isValidNumber r param (oneDigit x)
  | .uniform min max places => standardUniformRanges.any fun u =>
    u.min = min && u.max = max && u.places.val = places && u.fits r param
  | .intRange _ _ => false

theorem gives_of_suits {r : RuleTable} {param : String} {s : Sampler}
    (h : s.suits r param = true) (patience : Nat) :
    (s.sample patience : Draw σ String).Gives (ValidNumber r param) := by
  cases s with
  | choice values =>
    rw [Sampler.suits, Bool.and_eq_true, List.all_eq_true] at h
    refine (gives_choose patience (by simpa using h.1)).bind fun v hv => gives_pure ?_
    obtain ⟨i, hi, rfl⟩ := hv
    exact validNumber_of_check (h.2 i hi)
  | scientific values =>
    rw [Sampler.suits, Bool.and_eq_true, List.all_eq_true] at h
    refine (gives_choose patience (by simpa using h.1)).bind fun x hx => gives_pure ?_
    obtain ⟨y, hy, rfl⟩ := hx
    exact validNumber_of_check (h.2 y hy)
  | uniform min max places =>
    rw [Sampler.suits, List.any_eq_true] at h
    obtain ⟨u, hu, h⟩ := h
    simp only [Bool.and_eq_true, decide_eq_true_eq] at h
    obtain ⟨⟨⟨rfl, rfl⟩, rfl⟩, hfits⟩ := h
    have hregular := UniformRange.regular_of_mem u hu
    refine (gives_uniform hregular.spans hregular.places_pos patience).mono fun text htext => ?_
    obtain ⟨n, hleast, hgreatest, rfl⟩ := htext
    exact hregular.validNumber hfits hleast hgreatest
  | intRange min max => simp [Sampler.suits] at h

/-- The placeholder for the number of a parameter. -/
def ParamName.placeholder : ParamName → String
  | .dropout | .recurrentDropout | .l1 | .l2 | .leakRate | .spectralRadius | .inputScaling
  | .momentum | .epsilon => "FLOAT"
  | _ => "INT"

theorem suits_standard : ∀ p ∈ ParamName.all, p.shape = .number →
    (SamplingTable.standard.sampler p.placeholder (some p.word)).suits RuleTable.standard p.word
      = true := by
  decide +kernel

/-- What is sampled for a parameter is a number that the parameter may be given. -/
theorem gives_sample (patience : Nat) {p : ParamName} (h : p.shape = .number) :
    (SamplingTable.standard.sample patience p.placeholder (some p.word) : Draw σ String).Gives
      (ValidNumber RuleTable.standard p.word) :=
  gives_of_suits (suits_standard p (ParamName.mem_all p) h) patience

/-- The items of a dilation list are integers. -/
theorem gives_sample_item (patience : Nat) :
    (SamplingTable.standard.sample patience "INT" (some ParamName.dilations.word) :
      Draw σ String).Gives fun text =>
        text.toList ∈ pattern .int ∧ (readInt64? text).isSome = true := by
  have hsampler : SamplingTable.standard.sampler "INT" (some ParamName.dilations.word) =
      .choice [1, 2, 4, 8] := by
    decide +kernel
  have hitems : ([1, 2, 4, 8] : List Int64).all (fun i =>
      lexeme? (Sampler.intText i).toList == some (.int, (Sampler.intText i).toList.length) &&
        (readInt64? (Sampler.intText i)).isSome) = true := by
    rfl
  rw [SamplingTable.sample, hsampler]
  refine (gives_choose patience (by simp)).bind fun v hv => gives_pure ?_
  obtain ⟨i, hi, rfl⟩ := hv
  have hitem := List.all_eq_true.1 hitems i hi
  rw [Bool.and_eq_true, beq_iff_eq] at hitem
  obtain ⟨hlexeme, hread⟩ := hitem
  have hpattern := take_mem_pattern hlexeme
  rw [List.take_length] at hpattern
  exact ⟨hpattern, hread⟩

end NeuralArch
