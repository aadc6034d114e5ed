import NeuralArch.Command.Run
import NeuralArch.Proofs.Meaning.Conformance

/-!
# When a valid description compiles

A description without diagnostics compiles exactly when 64 bits hold its
integers.  A range of integers asks for that, but not every integer is given to
a parameter that has one: where a range of floats applies, or none, or in a
dilation list, an integer of any length is valid and has no value.

* `exists_compileText_iff` — compiling in terms of checking.
* `status_interpretation_iff` — the same for the exit statuses of the commands.
-/

namespace NeuralArch.Meaning

open NeuralArch.Tree
open Token Syntax Lexing

/-- 64 bits hold every integer of a text. -/
def IntegersFit (text : String) : Prop :=
  ∀ ts, Token.ofText text = .ok ts → ∀ t ∈ ts, Representable t

theorem checkText_eq_nil_iff {r : RuleTable} {text : String} :
    r.checkText text = .ok [] ↔ ∃ tree, Tree.ofText text = .ok tree ∧ r.validate tree = [] := by
  rw [RuleTable.checkText]
  cases Tree.ofText text with
  | error e => simp [Except.map]
  | ok tree => simp [Except.map, check_eq_nil_iff]

theorem exists_compileText_iff_check (r : RuleTable) (text : String) :
    (∃ a, r.compileText text = .ok a) ↔ r.checkText text = .ok [] ∧ IntegersFit text := by
  simp only [compileText_eq_ok_iff, checkText_eq_nil_iff]
  constructor
  · rintro ⟨a, tree, htree, hvalid, ha⟩
    obtain ⟨hshape, htokens⟩ := ofText_eq_ok_iff.1 htree
    refine ⟨⟨tree, htree, hvalid⟩, fun ts hts => ?_⟩
    obtain rfl := Except.ok.inj (htokens.symm.trans hts)
    exact (exists_architectureOf_iff hshape (fits_of_ofText htokens)).1
      ⟨a, (ofTree_eq_ok_iff hshape).1 ha⟩
  · rintro ⟨⟨tree, htree, hvalid⟩, hints⟩
    obtain ⟨hshape, htokens⟩ := ofText_eq_ok_iff.1 htree
    obtain ⟨a, ha⟩ := (exists_architectureOf_iff hshape (fits_of_ofText htokens)).2
      (hints _ htokens)
    exact ⟨a, tree, htree, hvalid, (ofTree_eq_ok_iff hshape).2 ha⟩

theorem status_validation_iff (file : String) (r : RuleTable) (text : String) :
    (Command.validation file r text).status = 0 ↔ r.checkText text = .ok [] := by
  rw [Command.validation]
  cases h : r.checkText text with
  | error e => simp [Command.Result.status]
  | ok ds => cases ds <;> simp [Command.Result.status]

theorem status_interpretation_iff (file : String) (r : RuleTable) (text : String) :
    (Command.interpretation file r text).status = 0 ↔ ∃ a, r.compileText text = .ok a := by
  rw [Command.interpretation]
  cases h : r.compileText text with
  | ok a => simp [Command.Result.status]
  | error e => cases e <;> simp [Command.Result.status]

/-- Compiling succeeds exactly where checking finds nothing and 64 bits hold every integer,
and the exit statuses of the two commands say the same. -/
theorem exists_compileText_iff (r : RuleTable) (file text : String) :
    ((∃ a, r.compileText text = .ok a) ↔ r.checkText text = .ok [] ∧ IntegersFit text) ∧
      ((Command.interpretation file r text).status = 0 ↔
        (Command.validation file r text).status = 0 ∧ IntegersFit text) := by
  refine ⟨exists_compileText_iff_check r text, ?_⟩
  rw [status_interpretation_iff, status_validation_iff]
  exact exists_compileText_iff_check r text

/-- A weight that is an integer beyond 64 bits. -/
def hugeWeight : String :=
  "neuralnet \x7b input \x7b \x7d dense \x7b l1 = 99999999999999999999; \x7d output \x7b \x7d \x7d"

/-- Nothing is reported about a huge weight, and yet it has no architecture. -/
theorem checkText_hugeWeight : ¬ ∀ (r : RuleTable) (text : String),
    r.checkText text = .ok [] ↔ ∃ a, r.compileText text = .ok a := by
  intro h
  have hcheck : (RuleTable.standard.checkText hugeWeight).toOption = some [] := by
    decide +kernel
  have hcompile : (RuleTable.standard.compileText hugeWeight).toOption = none := by
    decide +kernel
  have hok : RuleTable.standard.checkText hugeWeight = .ok [] := by
    cases hr : RuleTable.standard.checkText hugeWeight with
    | error e => simp [hr, Except.toOption] at hcheck
    | ok ds =>
      rw [hr, Except.toOption, Option.some.injEq] at hcheck
      rw [hcheck]
  obtain ⟨a, ha⟩ := (h RuleTable.standard hugeWeight).1 hok
  rw [ha] at hcompile
  exact absurd hcompile (by simp [Except.toOption])

end NeuralArch.Meaning
