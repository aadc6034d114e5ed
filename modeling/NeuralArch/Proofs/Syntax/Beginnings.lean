import Mathlib.Computability.MyhillNerode
import NeuralArch.Proofs.Syntax.Sentence

/-!
# Beginnings of sentences

What may still be written, once the beginning of a sentence stands there, is a
left quotient.  A sentence is taken apart from the front, kind by kind, so the
questions are always the same three: whether it can be completed at all, with
which kinds it can go on, and what may follow such a kind.

Every language here is asked in front of some rest, since a reader always has
one before it.  Repetition is then the sum of the rest and of one more round
(`kstar_mul_eq`), and a kind that begins only one of the two decides between
them.

* `Completable`, `Begins` — the first two questions.
* `quotient_mark_mul`, `quotient_oneOf_mul`, `quotient_param_mul` — what follows
  a kind that begins a construction.
* `quotient_kstar_mul_of_stop`, `quotient_kstar_mul_of_start` — what follows a
  kind that ends a repetition, and one that begins another round.
-/

namespace NeuralArch.Syntax

open Token
open scoped Computability

variable {k : Kind} {l m : Language Kind}

/-! ## Completions -/

/-- Whether there is a sentence at all. -/
def Completable (l : Language Kind) : Prop := ∃ ks, ks ∈ l

theorem completable_one : Completable 1 := ⟨[], rfl⟩

theorem Completable.mul (hl : Completable l) (hm : Completable m) : Completable (l * m) := by
  obtain ⟨ks, hks⟩ := hl
  obtain ⟨js, hjs⟩ := hm
  exact ⟨ks ++ js, Language.append_mem_mul hks hjs⟩

theorem completable_mark (k : Kind) : Completable (mark k) := ⟨[k], rfl⟩

theorem completable_oneOf {accept : Kind → Bool} (h : accept k = true) :
    Completable (oneOf accept) := ⟨[k], k, h, rfl⟩

theorem completable_kstar (l : Language Kind) : Completable l∗ := ⟨[], Language.nil_mem_kstar l⟩

theorem completable_dilationList : Completable dilationList :=
  (completable_mark .lsqb).mul
    ((completable_mark .int).mul ((completable_kstar _).mul (completable_mark .rsqb)))

theorem completable_value (s : ValueShape) : Completable (value s) := by
  cases s with
  | number => exact completable_oneOf (k := .int) rfl
  | activation => exact completable_oneOf (k := .activation .linear) rfl
  | initializer => exact completable_oneOf (k := .initializer .heNormal) rfl
  | padding => exact completable_oneOf (k := .padding .same) rfl
  | poolType => exact completable_oneOf (k := .poolType .max) rfl
  | dilationList => exact completable_dilationList

theorem completable_head (b : Block) : Completable (head b) := by
  cases b with
  | input => exact completable_mark .input
  | hidden => exact completable_oneOf (k := .layer .dense) rfl
  | output => exact completable_mark .output

theorem completable_block (b : Block) : Completable (block b) :=
  (completable_head b).mul
    ((completable_mark _).mul ((completable_kstar _).mul (completable_mark _)))

/-! ## First kinds -/

/-- Whether a sentence begins with a kind. -/
def Begins (l : Language Kind) (k : Kind) : Prop := ∃ ks, k :: ks ∈ l

theorem Begins.of_mark_mul {j : Kind} (h : Begins (mark j * m) k) : k = j := by
  obtain ⟨ks, hks⟩ := h
  obtain ⟨tail, -, heq⟩ := mem_mark_mul_iff.1 hks
  exact (List.cons.inj heq).1

theorem mem_oneOf_mul_iff {accept : Kind → Bool} {ks : List Kind} :
    ks ∈ oneOf accept * m ↔ ∃ j, accept j = true ∧ ∃ tail ∈ m, ks = j :: tail := by
  rw [Language.mem_mul]
  constructor
  · rintro ⟨_, ⟨j, hj, rfl⟩, tail, htail, rfl⟩
    exact ⟨j, hj, tail, htail, rfl⟩
  · rintro ⟨j, hj, tail, htail, rfl⟩
    exact ⟨[j], ⟨j, hj, rfl⟩, tail, htail, rfl⟩

theorem Begins.of_oneOf_mul {accept : Kind → Bool} (h : Begins (oneOf accept * m) k) :
    accept k = true := by
  obtain ⟨ks, hks⟩ := h
  obtain ⟨j, hj, tail, -, heq⟩ := mem_oneOf_mul_iff.1 hks
  rwa [(List.cons.inj heq).1]

theorem assignment_mul (p : ParamName) (m : Language Kind) :
    assignment p * m =
      mark (.param p) * (mark .equal * (value p.shape * (mark .semicolon * m))) := by
  rw [assignment, mul_assoc, mul_assoc, mul_assoc]

/-- What comes behind the name of a parameter. -/
theorem mem_param_mul_iff {b : Block} {ks : List Kind} :
    ks ∈ param b * m ↔ ∃ p, b.admits p = true ∧
      ∃ tail ∈ mark .equal * (value p.shape * (mark .semicolon * m)),
        ks = .param p :: tail := by
  constructor
  · intro h
    obtain ⟨front, ⟨p, hp, hfront⟩, rest, hrest, rfl⟩ := Language.mem_mul.1 h
    have hmem := Language.append_mem_mul hfront hrest
    rw [assignment_mul, mem_mark_mul_iff] at hmem
    exact ⟨p, hp, hmem⟩
  · rintro ⟨p, hp, htail⟩
    rw [← mem_mark_mul_iff, ← assignment_mul] at htail
    obtain ⟨front, hfront, rest, hrest, rfl⟩ := Language.mem_mul.1 htail
    exact Language.append_mem_mul ⟨p, hp, hfront⟩ hrest

theorem Begins.of_param_mul {b : Block} (h : Begins (param b * m) k) :
    ∃ p, b.admits p = true ∧ k = .param p := by
  obtain ⟨ks, hks⟩ := h
  obtain ⟨p, hp, tail, -, heq⟩ := mem_param_mul_iff.1 hks
  exact ⟨p, hp, (List.cons.inj heq).1⟩

/-! ## What follows a kind -/

theorem quotient_add (ks : List Kind) :
    (l + m).leftQuotient ks = l.leftQuotient ks + m.leftQuotient ks := rfl

/-- Nothing follows a kind that begins no sentence. -/
theorem quotient_eq_zero (h : ¬ Begins l k) : l.leftQuotient [k] = 0 :=
  Set.eq_empty_iff_forall_notMem.2 fun ks hks => h ⟨ks, hks⟩

theorem quotient_mark_mul (k : Kind) (m : Language Kind) :
    (mark k * m).leftQuotient [k] = m := by
  ext ks
  rw [Language.mem_leftQuotient, List.singleton_append, mem_mark_mul_iff]
  constructor
  · rintro ⟨tail, htail, heq⟩
    rwa [(List.cons.inj heq).2]
  · exact fun hks => ⟨ks, hks, rfl⟩

theorem quotient_oneOf_mul {accept : Kind → Bool} (h : accept k = true) (m : Language Kind) :
    (oneOf accept * m).leftQuotient [k] = m := by
  ext ks
  rw [Language.mem_leftQuotient, List.singleton_append, mem_oneOf_mul_iff]
  constructor
  · rintro ⟨j, -, tail, htail, heq⟩
    rwa [(List.cons.inj heq).2]
  · exact fun hks => ⟨k, h, ks, hks, rfl⟩

theorem quotient_param_mul {b : Block} {p : ParamName} (h : b.admits p = true)
    (m : Language Kind) :
    (param b * m).leftQuotient [.param p] =
      mark .equal * (value p.shape * (mark .semicolon * m)) := by
  ext ks
  rw [Language.mem_leftQuotient, List.singleton_append, mem_param_mul_iff]
  constructor
  · rintro ⟨q, -, tail, htail, heq⟩
    obtain ⟨hname, rfl⟩ := List.cons.inj heq
    rwa [Kind.param.inj hname]
  · exact fun hks => ⟨p, h, ks, hks, rfl⟩

/-! ## Repetition -/

/-- In front of a rest, either the rest comes, or one more round. -/
theorem kstar_mul_eq (l m : Language Kind) : l∗ * m = m + l * (l∗ * m) := by
  conv_lhs => rw [← Language.one_add_self_mul_kstar_eq_kstar l]
  rw [add_mul, one_mul, mul_assoc]

theorem Begins.of_kstar_mul (h : Begins (l∗ * m) k) : Begins m k ∨ Begins (l * (l∗ * m)) k := by
  rw [kstar_mul_eq] at h
  obtain ⟨ks, hks⟩ := h
  rcases (Language.mem_add ..).1 hks with hrest | hround
  · exact .inl ⟨ks, hrest⟩
  · exact .inr ⟨ks, hround⟩

/-- A kind that begins no further round is one of the rest. -/
theorem quotient_kstar_mul_of_stop (h : ¬ Begins (l * (l∗ * m)) k) :
    (l∗ * m).leftQuotient [k] = m.leftQuotient [k] := by
  conv_lhs => rw [kstar_mul_eq]
  rw [quotient_add, quotient_eq_zero h, add_zero]

/-- A kind that does not begin the rest begins another round. -/
theorem quotient_kstar_mul_of_start (h : ¬ Begins m k) :
    (l∗ * m).leftQuotient [k] = (l * (l∗ * m)).leftQuotient [k] := by
  conv_lhs => rw [kstar_mul_eq]
  rw [quotient_add, quotient_eq_zero h, zero_add]

end NeuralArch.Syntax
