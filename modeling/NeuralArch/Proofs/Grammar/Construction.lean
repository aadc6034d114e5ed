import NeuralArch.Grammar.OfText
import NeuralArch.Proofs.Grammar.Standard

/-!
# Rules of built grammars

A grammar is built from a text or from nothing, and by adding alternatives.
However it is built, a rule knows its alternatives: there is one at least, a
production is marked as self-recursive exactly if it refers to the rule's own
symbol, and the indices that an expansion falls back on are those of the
others.

* `Built` — the grammars that can be built.
* `Built.regular` — each rule is made of alternatives of its own symbol.
* `Built.mem_nonRecursive_iff`, `Built.isRecursive` — what a rule knows about
  self-recursion.
-/

namespace NeuralArch.Grammar

/-- The grammars that can be built. -/
inductive Built : Grammar → Prop
  | empty : Built .empty
  | ofText (text : String) : Built (ofText text)
  | add {g g' : Grammar} {symbol : String} {tokens : List String} (hg : Built g)
      (hadd : g.add symbol tokens = .ok g') : Built g'

/-- A list of alternatives builds a grammar, whether or not some have no tokens. -/
theorem built_ofAlternatives (alternatives : List (String × List String)) :
    (ofAlternatives alternatives).Built := by
  rw [ofAlternatives]
  refine List.foldlRecOn alternatives _ .empty ?_
  rintro g hg ⟨symbol, tokens⟩ _
  cases hadd : g.add symbol tokens with
  | error e => simpa [hadd] using hg
  | ok g' => simpa [hadd] using hg.add hadd

/-- Every rule is made of alternatives of its symbol. -/
def Regular (g : Grammar) : Prop :=
  ∀ s r, g.rule? s = some r → ∃ alternatives : List (List Element), alternatives ≠ [] ∧
    r = Rule.ofProductions (alternatives.map (Production.ofElements s))

theorem regular_empty : Regular .empty := by
  intro s r h
  simp at h

theorem Regular.push {g : Grammar} (hg : g.Regular) (s : String) (tokens : List String) :
    (g.push s tokens).Regular := by
  intro t r h
  rw [rule?_push] at h
  by_cases hst : s = t
  · subst hst
    rw [if_pos rfl, Option.some.injEq] at h
    have hone : ∀ alternatives : List (List Element),
        (Rule.ofProductions (alternatives.map (Production.ofElements s))).push
            (Production.ofTokens s tokens) =
          Rule.ofProductions ((alternatives ++ [(tokens.filter (· != Production.emptyMarker)).map
            Element.ofToken]).map (Production.ofElements s)) := by
      intro alternatives
      rw [List.map_append, List.map_singleton, Rule.ofProductions_append, Production.ofTokens]
    cases hold : g.rule? s with
    | none =>
      rw [hold, Option.getD_none] at h
      exact ⟨_, List.append_ne_nil_of_right_ne_nil [] (List.cons_ne_nil _ []),
        h.symm.trans (hone [])⟩
    | some old =>
      obtain ⟨alternatives, -, rfl⟩ := hg s old hold
      rw [hold, Option.getD_some] at h
      exact ⟨_, List.append_ne_nil_of_right_ne_nil alternatives (List.cons_ne_nil _ []),
        h.symm.trans (hone alternatives)⟩
  · rw [if_neg hst] at h
    exact hg t r h

theorem Regular.discard {g : Grammar} (hg : g.Regular) (s : String) : (g.discard s).Regular := by
  intro t r h
  rw [rule?_discard] at h
  by_cases hst : s = t
  · simp [hst] at h
  · rw [if_neg hst] at h
    exact hg t r h

theorem Regular.define {g : Grammar} (hg : g.Regular) (s : String)
    (alternatives : List (List String)) : (g.define s alternatives).Regular := by
  rw [Grammar.define]
  split
  · exact hg
  · refine List.foldlRecOn alternatives _ (hg.discard s) ?_
    intro g' hg' tokens _
    exact hg'.push s tokens

theorem regular_ofText (text : String) : (ofText text).Regular := by
  rw [ofText]
  refine List.foldlRecOn _ _ regular_empty ?_
  intro g hg section' _
  exact hg.define _ _

theorem Built.regular {g : Grammar} (hg : g.Built) : g.Regular := by
  induction hg with
  | empty => exact regular_empty
  | ofText text => exact regular_ofText text
  | @add g g' symbol tokens _ hadd ih =>
    rw [Grammar.add] at hadd
    split at hadd
    · simp at hadd
    · rw [← Except.ok.inj hadd]
      exact ih.push symbol tokens

/-! ## What rules know -/

section

variable {g : Grammar} {s : String} {r : Rule}

theorem refersTo_iff {e : Element} : e.refersTo s = true ↔ e = .symbol s := by
  rw [Element.refersTo, beq_iff_eq]

theorem Regular.selfRecursive_iff (hg : g.Regular) (hr : g.rule? s = some r) {p : Production}
    (hp : p ∈ r.productions) : p.selfRecursive = true ↔ .symbol s ∈ p.elements := by
  obtain ⟨alternatives, -, rfl⟩ := hg s r hr
  rw [Rule.productions_ofProductions] at hp
  obtain ⟨es, -, rfl⟩ := List.mem_map.1 hp
  rw [Production.ofElements, List.any_eq_true]
  constructor
  · rintro ⟨e, he, hrefers⟩
    exact refersTo_iff.1 hrefers ▸ he
  · intro hmem
    exact ⟨_, hmem, refersTo_iff.2 rfl⟩

/-- A rule falls back on the alternatives that do not refer to its symbol. -/
theorem Built.mem_nonRecursive_iff (hg : g.Built) (hr : g.rule? s = some r) {i : Nat} :
    i ∈ r.nonRecursive ↔ ∃ p, r.productions[i]? = some p ∧ .symbol s ∉ p.elements := by
  have hflag : ∀ p, r.productions[i]? = some p →
      (p.selfRecursive = false ↔ .symbol s ∉ p.elements) := by
    intro p hp
    rw [← Bool.not_eq_true, hg.regular.selfRecursive_iff hr (List.mem_of_getElem? hp)]
  obtain ⟨alternatives, -, rfl⟩ := hg.regular s r hr
  rw [Rule.mem_nonRecursive_ofProductions]
  rw [Rule.productions_ofProductions] at hflag ⊢
  exact exists_congr fun p => and_congr_right fun hp => hflag p hp

theorem Built.not_mem_of_mem_nonRecursive (hg : g.Built) (hr : g.rule? s = some r) {i : Nat}
    {p : Production} (hp : r.productions[i]? = some p) (hi : i ∈ r.nonRecursive) :
    .symbol s ∉ p.elements := by
  obtain ⟨q, hq, hflat⟩ := (hg.mem_nonRecursive_iff hr).1 hi
  obtain rfl := Option.some.inj (hp.symm.trans hq)
  exact hflat

/-- A rule with an alternative that refers to its symbol knows that it has one. -/
theorem Built.isRecursive (hg : g.Built) (hr : g.rule? s = some r) {p : Production}
    (hp : p ∈ r.productions) (hself : .symbol s ∈ p.elements) : r.isRecursive = true := by
  have hflag := (hg.regular.selfRecursive_iff hr hp).2 hself
  obtain ⟨alternatives, -, rfl⟩ := hg.regular s r hr
  rw [Rule.productions_ofProductions] at hp
  exact Rule.isRecursive_ofProductions.2 ⟨p, hp, hflag⟩

end

end NeuralArch.Grammar
