import NeuralArch.Proofs.Generator.Derivation
import NeuralArch.Proofs.Generator.Termination

/-!
# How many steps of self-recursion are taken

A step of self-recursion raises the depth, and the depth is handed on to other
symbols, so rules that refer to themselves share one allowance as long as they
are written inside one another.  Side by side they do not: each gets the
allowance anew.  So the whole expansion takes no more steps than one chain may,
if no alternative refers to two symbols from which self-recursion can be
reached.

* `Refers`, `Recurs`, `Unbranched` — what alternatives refer to, the symbols from
  which self-recursion can be reached, and the grammars where they form chains.
* `costs_elements` — an alternative costs no more than its one recurring
  element.
* `symbol_costs` — the steps that a run takes, by induction on the descent.
* `selfRecursions_le` — the steps that an expansion counts.
-/

namespace NeuralArch.Generator

open Relation

variable {g : Generator} {x y : String}

/-! ## Chains -/

/-- A symbol refers to another one, or to itself, in one of its alternatives. -/
def Refers (g : Generator) (x y : String) : Prop :=
  ∃ r p, g.grammar.rule? x = some r ∧ p ∈ r.productions ∧ .symbol y ∈ p.elements

/-- From a symbol one gets to a rule that refers to itself. -/
def Recurs (g : Generator) (x : String) : Prop :=
  ∃ z, ReflTransGen (Refers g) x z ∧ Refers g z z

/-- An element that refers to a symbol from which one gets to a rule that refers to itself. -/
def RecursAt (g : Generator) (e : Element) : Prop := ∃ y, e = .symbol y ∧ Recurs g y

/-- What can be reached from a symbol has no alternative with two such elements. -/
def Unbranched (g : Generator) (name : String) : Prop :=
  ∀ x r p, ReflTransGen (Refers g) name x → g.grammar.rule? x = some r → p ∈ r.productions →
    p.elements.Pairwise fun a b => ¬ (RecursAt g a ∧ RecursAt g b)

theorem Recurs.of_refers (h : Refers g x y) (hy : Recurs g y) : Recurs g x := by
  obtain ⟨z, hyz, hz⟩ := hy
  exact ⟨z, .head h hyz, hz⟩

theorem Recurs.of_self (h : Refers g x x) : Recurs g x := ⟨x, .refl, h⟩

theorem Unbranched.of_refers (h : g.Unbranched x) (hy : Refers g x y) : g.Unbranched y :=
  fun z r p hz => h z r p (.head hy hz)

/-! ## Costs -/

section

variable {σ : Type} {patience maxDepth depth n allowance : Nat} {param : Option String}

/-- No more steps of self-recursion are counted than the allowance, and none if there is nothing
to spend it on. -/
structure Costs (recurs : Prop) (allowance : Nat) (s t : State σ) : Prop where
  le : t.stats.selfRecursions ≤ s.stats.selfRecursions + allowance
  eq : ¬ recurs → t.stats.selfRecursions = s.stats.selfRecursions

theorem Costs.of_eq {recurs : Prop} {s t : State σ}
    (h : t.stats.selfRecursions = s.stats.selfRecursions) : Costs recurs allowance s t :=
  ⟨by omega, fun _ => h⟩

theorem Costs.mono {p q : Prop} {s t : State σ} (h : Costs p allowance s t) (hpq : p → q) :
    Costs q allowance s t :=
  ⟨h.le, fun hq => h.eq fun hp => hq (hpq hp)⟩

/-- If only one of two runs in a row can recur, both together cost no more than one. -/
theorem Costs.trans {p q : Prop} {s t u : State σ} (hst : Costs p allowance s t)
    (htu : Costs q allowance t u) (hone : ¬ (p ∧ q)) : Costs (p ∨ q) allowance s u := by
  have hle := hst.le
  have hle' := htu.le
  refine ⟨?_, fun hnone => ?_⟩
  · by_cases hp : p
    · have hsecond := htu.eq fun hq => hone ⟨hp, hq⟩
      omega
    · have hfirst := hst.eq hp
      omega
  · rw [not_or] at hnone
    rw [htu.eq hnone.2, hst.eq hnone.1]

variable [RandomSource σ] {expand : String → Nat → Option String → Expand σ Unit}
  {self name : String}

/-- Elements of which at most one recurs cost no more than one of them. -/
theorem costs_elements {es : List Element}
    (hone : es.Pairwise fun a b => ¬ (RecursAt g a ∧ RecursAt g b))
    (hcost : ∀ e ∈ es, ∀ s t, ElementRun g patience expand self depth param s e t →
      Costs (RecursAt g e) allowance s t) :
    Relates (Costs (∃ e ∈ es, RecursAt g e) allowance)
      (elements g patience expand self depth param es) := by
  induction es with
  | nil =>
    intro s a t hrun
    obtain ⟨-, rfl⟩ := pure_eq_done.1 hrun
    exact .of_eq rfl
  | cons e es ih =>
    intro s a t hrun
    rw [List.pairwise_cons] at hone
    rw [List.forall_mem_cons] at hcost
    obtain ⟨u, he, hes⟩ := elements_cons_eq_done hrun
    refine ((hcost.1 s u he).trans (ih hone.2 hcost.2 u a t hes) ?_).mono ?_
    · rintro ⟨hfirst, b, hb, hother⟩
      exact hone.1 b hb ⟨hfirst, hother⟩
    · rintro (hfirst | ⟨b, hb, hother⟩)
      · exact ⟨e, List.mem_cons_self .., hfirst⟩
      · exact ⟨b, List.mem_cons_of_mem _ hb, hother⟩

/-- An element costs what is left of the allowance: its own symbol costs a step, and one less is
left then. -/
theorem costs_element (hmax : maxDepth < Number.wordCount) {e : Element} {s t : State σ}
    (hself : e = .symbol self → depth < maxDepth ∧ Refers g self self)
    (hexpand : ∀ y, e = .symbol y → ∀ depth param,
      Relates (Costs (Recurs g y) (maxDepth - depth)) (expand y depth param))
    (hrun : ElementRun g patience expand self depth param s e t) :
    Costs (RecursAt g e) (maxDepth - depth) s t := by
  cases hrun with
  | literal | word | value => exact .of_eq rfl
  | self hbelow hrun =>
    obtain ⟨hdepth, hrefers⟩ := hself rfl
    rw [next?_of_lt g (by omega)] at hbelow
    obtain rfl := Option.some.inj hbelow
    have hle := (hexpand self rfl _ _ _ _ _ hrun).le
    have hcount : ∀ st : Stats, (st.recur (depth + 1)).selfRecursions = st.selfRecursions + 1 :=
      fun _ => rfl
    rw [hcount] at hle
    exact ⟨by omega, fun hnone => absurd ⟨self, rfl, .of_self hrefers⟩ hnone⟩
  | @other y _ _ hrun =>
    exact (hexpand y rfl _ _ _ _ _ hrun).mono fun hrecurs => ⟨y, rfl, hrecurs⟩

/-- A run takes no more steps of self-recursion than the depth that is left, and none if none
can be reached. -/
theorem symbol_costs (hbuilt : g.grammar.Built) (hplain : g.config.strategies = ∅)
    (hmax : maxDepth < Number.wordCount) (n : Nat) : ∀ name depth param, g.Unbranched name →
      Relates (Costs (Recurs g name) (maxDepth - depth))
        (symbol g patience maxDepth n name depth param : Expand σ Unit) := by
  induction n with
  | zero =>
    intro name depth param _ s a t h
    cases h
  | succ n ih =>
    intro name depth param hchain s a t h
    cases symbol_symbolRun h with
    | undefined => exact .of_eq rfl
    | truncated => exact .of_eq rfl
    | strategy _ hplan _ =>
      rw [hplain] at hplan
      simp at hplan
    | @alternative r i p source t layerType hrule hplan hp hbound hrun hlayer =>
      have hmem := List.mem_of_getElem? hp
      have hrefers : ∀ y, .symbol y ∈ p.elements → Refers g name y :=
        fun y hy => ⟨r, p, hrule, hmem, hy⟩
      have hcost : ∀ e ∈ p.elements, ∀ s t : State σ,
          ElementRun g patience (symbol g patience maxDepth n) name depth
            (p.paramName?.or param) s e t → Costs (RecursAt g e) (maxDepth - depth) s t := by
        intro e he s t
        apply costs_element hmax
        · intro hself
          exact ⟨lt_of_symbol_mem hbuilt hrule hp hbound (hself ▸ he), hrefers name (hself ▸ he)⟩
        · intro y hy depth param
          exact ih y depth param (hchain.of_refers (hrefers y (hy ▸ he)))
      have hcosts := costs_elements (hchain name r p .refl hrule hmem) hcost _ () t hrun
      refine ⟨hcosts.le, fun hnone => hcosts.eq ?_⟩
      rintro ⟨_, he, y, rfl, hrecurs⟩
      exact hnone (hrecurs.of_refers (hrefers y he))

end

/-! ## Expansions -/

/-- Without strategies, and where no alternative refers to two symbols from which self-recursion
can be reached, an expansion takes no more steps of self-recursion than the depth that is left
when it starts. -/
theorem selfRecursions_le {σ : Type} [RandomSource σ] {name : String} (hbuilt : g.grammar.Built)
    (hplain : g.config.strategies = ∅) (hchain : g.Unbranched name) (limits : Limits)
    (depth maxDepth : UInt64) (source rest : σ) (e : Expansion)
    (h : g.expand limits name depth maxDepth source = .ok (.done (e, rest))) :
    e.stats.selfRecursions ≤ maxDepth.toNat - depth.toNat := by
  obtain ⟨t, hrun, hfinish⟩ := expand_eq_done h
  cases hfinish
  have hcosts :=
    symbol_costs hbuilt hplain maxDepth.toNat_lt _ name depth.toNat none hchain _ () t hrun
  have hstart : (g.start source).stats.selfRecursions = 0 := rfl
  have hle := hcosts.le
  rw [hstart, Nat.zero_add] at hle
  exact hle

/-- A generator with two rules that refer to themselves and to each other, and with a symbol
beside them that leads nowhere. -/
def crossing : Generator :=
  { ofGrammar (Grammar.ofAlternatives [("outer", ["<pad>", "<outer>"]), ("outer", ["<inner>"]),
      ("inner", ["\"in\"", "<inner>"]), ("inner", ["<outer>"]), ("inner", ["\"end\""]),
      ("pad", ["\"pad\""])]) with
    config := { Config.standard with strategies := ∅ } }

theorem not_recurs_pad : ¬ Recurs crossing "pad" := by
  have hnone : ∀ y, ¬ Refers crossing "pad" y := by
    rintro y ⟨r, p, hrule, hp, hy⟩
    have hall : (crossing.grammar.rule? "pad").all (fun r => r.productions.all fun p =>
        p.elements.all (· = .literal "pad")) = true := by
      rfl
    rw [hrule] at hall
    have hliteral := of_decide_eq_true (List.all_eq_true.1 (List.all_eq_true.1 hall p hp) _ hy)
    cases hliteral
  rintro ⟨z, hreach, hz⟩
  cases hreach.cases_head with
  | inl heq => exact hnone z (heq ▸ hz)
  | inr hstep =>
    obtain ⟨y, hy, -⟩ := hstep
    exact hnone y hy

theorem unbranched_crossing : crossing.Unbranched "outer" := by
  intro x r p _ hrule hp
  have hall : ∀ rule ∈ crossing.grammar.rules.toList, ∀ p ∈ rule.2.productions,
      p.elements.Pairwise fun a _ => a = .symbol "pad" ∨ a = .literal "in" := by
    decide
  refine (hall _ (Std.ExtTreeMap.mem_toList_iff_getElem?_eq_some.2 hrule) _ hp).imp ?_
  rintro a b hside ⟨⟨y, rfl, hy⟩, z, rfl, -⟩
  rcases hside with hpad | hliteral
  · rw [Element.symbol.inj hpad] at hy
    exact not_recurs_pad hy
  · cases hliteral

/-- Both rules draw on what is left of the depth. -/
theorem selfRecursions_le_crossing :
    ∃ e rest, crossing.expand ⟨8, 8⟩ "outer" 1 3
        (WordSource.ofWords [0, 0, 0x8000000000000000, 0, 0x8000000080000000]) =
        .ok (.done (e, rest)) ∧
      e.stats.selfRecursions = 2 ∧ e.stats.selfRecursions ≤ 3 - 1 := by
  have hrun : (done? (crossing.expand ⟨8, 8⟩ "outer" 1 3
      (WordSource.ofWords [0, 0, 0x8000000000000000, 0, 0x8000000080000000]))).any
      (fun r => r.1.stats.selfRecursions == 2) = true := by
    decide +kernel
  obtain ⟨⟨e, rest⟩, h, hcount⟩ := exists_done_of_any hrun
  exact ⟨e, rest, h, eq_of_beq hcount, selfRecursions_le (Grammar.built_ofAlternatives _) rfl
    unbranched_crossing _ _ _ _ _ _ h⟩

end NeuralArch.Generator
