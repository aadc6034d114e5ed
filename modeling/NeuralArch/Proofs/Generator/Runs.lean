import NeuralArch.Generator
import NeuralArch.Proofs.Generator.Writing

/-!
# What a finished run has done

A run that is done has passed through a state behind each of its steps.  Here
every kind of step is taken apart once: what it started from, what it called,
and what it left.  Statements about all runs of a generator then go by
induction on the descent, one case for each kind of step, whatever grammar and
configuration the generator has.

* `Picks`, `ElementRun`, `SymbolRun` — the ends of a choice, of an element and
  of a symbol.
* `Passes`, `Passes.strategy` — what the alternatives of an item keep, is kept by
  a strategy.
* `Steps`, `Steps.symbol` — a relation between states that every step keeps is
  kept by every run.
-/

namespace NeuralArch.Generator

open Layout

variable {σ α β : Type} {s t : State σ}

/-- The state behind a mark. -/
def State.written (s : State σ) (m : Mark) : State σ :=
  { s with marks := m :: s.marks, page := s.page.mark m }

/-! ## Sequences and draws -/

theorem bind_eq_done {x : Expand σ α} {f : α → Expand σ β} {b : β} :
    (x >>= f) s = .done (b, t) ↔ ∃ a u, x s = .done (a, u) ∧ f a u = .done (b, t) :=
  Draw.bind_eq_done

theorem pure_eq_done {a b : α} : (pure a : Expand σ α) s = .done (b, t) ↔ a = b ∧ s = t :=
  Draw.pure_eq_done

theorem draw_eq_done {d : Draw σ α} {a : α} :
    Expand.draw d s = .done (a, t) ↔
      ∃ source, d s.source = .done (a, source) ∧ t = { s with source } := by
  have hunfold : Expand.draw d s =
      (d s.source >>= fun r => .done (r.1, { s with source := r.2 })) := rfl
  rw [hunfold, Outcome.bind_eq_done]
  constructor
  · rintro ⟨⟨b, source⟩, hd, hst⟩
    rw [Outcome.done.injEq, Prod.mk.injEq] at hst
    exact ⟨source, hst.1 ▸ hd, hst.2.symm⟩
  · rintro ⟨source, hd, rfl⟩
    exact ⟨(a, source), hd, rfl⟩

theorem count_bind_eq_done {f : Stats → Stats} {x : Expand σ α} {a : α} :
    (Expand.count f >>= fun _ => x) s = .done (a, t) ↔
      x { s with stats := f s.stats } = .done (a, t) :=
  Iff.rfl

theorem deeper_eq_done {g : Generator} {depth below : Nat} :
    deeper g depth s = .done (below, t) ↔ g.next? depth = some below ∧ s = t := by
  rw [deeper]
  cases g.next? depth with
  | none => simp [Expand.fail]
  | some next => rw [pure_eq_done, Option.some.injEq]

theorem alternative_eq_done {r : Rule} {i : Nat} {p : Production} :
    alternative r i s = .done (p, t) ↔ r.productions[i]? = some p ∧ s = t := by
  rw [alternative]
  cases r.productions[i]? with
  | none => simp [Expand.fail]
  | some q => rw [pure_eq_done, Option.some.injEq]

/-- Productions that are looked up one by one are those of the indices. -/
theorem mapM_alternative_eq_done {r : Rule} {is : List Nat} {ps : List Production}
    (h : is.mapM (alternative r) s = .done (ps, t)) :
    List.Forall₂ (fun i p => r.productions[i]? = some p) is ps ∧ s = t := by
  induction is generalizing s ps with
  | nil =>
    rw [List.mapM_nil, pure_eq_done] at h
    obtain ⟨rfl, rfl⟩ := h
    exact ⟨.nil, rfl⟩
  | cons i is ih =>
    rw [List.mapM_cons, bind_eq_done] at h
    obtain ⟨p, u, hp, h⟩ := h
    rw [bind_eq_done] at h
    obtain ⟨qs, v, hqs, h⟩ := h
    obtain ⟨hi, rfl⟩ := alternative_eq_done.1 hp
    obtain ⟨rfl, rfl⟩ := pure_eq_done.1 h
    obtain ⟨his, rfl⟩ := ih hqs
    exact ⟨.cons hi his, rfl⟩

theorem asLayerType_eq_done {body : Expand σ Unit} (h : asLayerType body s = .done ((), t)) :
    ∃ u cs, body s = .done ((), u) ∧ u.page.textFrom? s.page.size = some cs ∧
      t = { u with layerType := some (String.ofList (Text.trim cs)) } := by
  rw [asLayerType] at h
  obtain ⟨_, _, hget, h⟩ := bind_eq_done.1 h
  cases hget
  obtain ⟨_, u, hbody, h⟩ := bind_eq_done.1 h
  obtain ⟨_, _, hget, h⟩ := bind_eq_done.1 h
  cases hget
  cases hcs : u.page.textFrom? s.page.size with
  | none =>
    rw [hcs] at h
    cases h
  | some cs =>
    rw [hcs] at h
    cases h
    exact ⟨u, cs, hbody, hcs, rfl⟩

/-- Productions that are looked up are alternatives of the rule. -/
theorem mem_of_mapM_alternative {r : Rule} {is : List Nat} {ps : List Production}
    (h : is.mapM (alternative r) s = .done (ps, t)) : ∀ p ∈ ps, p ∈ r.productions := by
  have hlookup := (mapM_alternative_eq_done h).1
  clear h
  induction hlookup with
  | nil => simp
  | cons hi _ ih => exact List.forall_mem_cons.2 ⟨List.mem_of_getElem? hi, ih⟩

/-! ## Choices -/

/-- The end of a choice: an alternative, at the bound one that is not self-recursive, or none
at the bound, where a recursive rule is cut off. -/
inductive Picks (maxDepth depth : Nat) (r : Rule) (s : State σ) :
    Option Production → State σ → Prop
  | some {i : Nat} {p : Production} {source : σ} (hp : r.productions[i]? = some p)
      (hbound : r.isRecursive = true → maxDepth ≤ depth → i ∈ r.nonRecursive) :
      Picks maxDepth depth r s (some p) { s with source }
  | none (hrec : r.isRecursive = true) (hdepth : maxDepth ≤ depth) (hnone : r.nonRecursive = []) :
      Picks maxDepth depth r s none { s with stats := s.stats.truncate }

section

variable [RandomSource σ] {g : Generator} {patience maxDepth depth n : Nat}
  {param : Option String}

/-- What is chosen is a member, and only of an empty list there is nothing to choose. -/
theorem choose_eq_done {xs : List α} {source source' : σ} {choice : Option α}
    (h : Draw.choose patience xs source = .done (choice, source')) :
    (∃ x ∈ xs, choice = some x) ∨ (xs = [] ∧ choice = none ∧ source = source') := by
  by_cases hxs : xs = []
  · subst hxs
    cases h
    exact .inr ⟨rfl, rfl, rfl⟩
  · left
    have hgives := @Draw.gives_choose σ _ _ patience xs hxs source
    rw [h] at hgives
    exact hgives

theorem chooseAlternative_picks {r : Rule} {choice : Option Production}
    (h : chooseAlternative patience maxDepth depth r s = .done (choice, t)) :
    Picks maxDepth depth r s choice t := by
  have hsome : ∀ {i : Nat} {source : σ},
      (r.isRecursive = true → maxDepth ≤ depth → i ∈ r.nonRecursive) →
      (some <$> alternative r i : Expand σ _) { s with source } = .done (choice, t) →
      Picks maxDepth depth r s choice t := by
    intro i source hbound h
    rw [map_eq_pure_bind, bind_eq_done] at h
    obtain ⟨p, u, hlookup, h⟩ := h
    obtain ⟨hp, rfl⟩ := alternative_eq_done.1 hlookup
    obtain ⟨rfl, rfl⟩ := pure_eq_done.1 h
    exact .some hp hbound
  rw [chooseAlternative] at h
  split at h
  · next hcond =>
    rw [Bool.and_eq_true, decide_eq_true_iff] at hcond
    obtain ⟨chosen, u, hdraw, h⟩ := bind_eq_done.1 h
    obtain ⟨source, hchosen, rfl⟩ := draw_eq_done.1 hdraw
    rcases choose_eq_done hchosen with ⟨i, hi, rfl⟩ | ⟨hnone, rfl, rfl⟩
    · exact hsome (fun _ _ => hi) h
    · rw [count_bind_eq_done, pure_eq_done] at h
      obtain ⟨rfl, rfl⟩ := h
      exact .none hcond.1 hcond.2 hnone
  · next hcond =>
    obtain ⟨i, u, hdraw, h⟩ := bind_eq_done.1 h
    obtain ⟨source, -, rfl⟩ := draw_eq_done.1 hdraw
    refine hsome (fun hrec hdepth => absurd ?_ hcond) h
    rw [hrec, Bool.true_and, decide_eq_true hdepth]

/-! ## Elements and productions -/

/-- The depth of a symbol that stands in an alternative of `self`. -/
def depthInside? (g : Generator) (self : String) (depth : Nat) (name : String) : Option Nat :=
  if name = self then g.next? depth else some depth

theorem depthInside?_self (self : String) :
    g.depthInside? self depth self = g.next? depth := if_pos rfl

theorem depthInside?_of_ne {self name : String} (h : name ≠ self) :
    g.depthInside? self depth name = some depth := if_neg h

variable {expand : String → Nat → Option String → Expand σ Unit} {self : String}

/-- The end of an element: what it wrote, or what the expansion of a symbol left. -/
inductive ElementRun (g : Generator) (patience : Nat)
    (expand : String → Nat → Option String → Expand σ Unit) (self : String) (depth : Nat)
    (param : Option String) (s : State σ) : Element → State σ → Prop
  | literal (text : String) :
      ElementRun g patience expand self depth param s (.literal text)
        (s.written (Mark.ofLiteral text))
  | word {name : String} (hname : name ∉ g.config.placeholders) :
      ElementRun g patience expand self depth param s (.terminal name) (s.written (.word name))
  | value {name value : String} {source : σ} (hname : name ∈ g.config.placeholders)
      (hvalue : g.sampling.sample patience name param s.source = .done (value, source)) :
      ElementRun g patience expand self depth param s (.terminal name)
        (State.written { s with source } (.value value))
  | self {below : Nat} {t : State σ} (hbelow : g.next? depth = some below)
      (hrun : expand self below param { s with stats := s.stats.recur below } = .done ((), t)) :
      ElementRun g patience expand self depth param s (.symbol self) t
  | other {name : String} {t : State σ} (hne : name ≠ self)
      (hrun : expand name depth param s = .done ((), t)) :
      ElementRun g patience expand self depth param s (.symbol name) t

theorem terminal_elementRun {name : String}
    (h : terminal g patience name param s = .done ((), t)) :
    ElementRun g patience expand self depth param s (.terminal name) t := by
  rw [terminal] at h
  split at h
  · next hname =>
    obtain ⟨value, u, hdraw, h⟩ := bind_eq_done.1 h
    obtain ⟨source, hvalue, rfl⟩ := draw_eq_done.1 hdraw
    cases h
    exact .value (List.contains_iff_mem.1 hname) hvalue
  · next hname =>
    cases h
    exact .word (mt List.contains_iff_mem.2 hname)

/-- Between the first element and the others there is a state. -/
theorem elements_cons_eq_done {e : Element} {es : List Element}
    (h : elements g patience expand self depth param (e :: es) s = .done ((), t)) :
    ∃ u, ElementRun g patience expand self depth param s e u ∧
      elements g patience expand self depth param es u = .done ((), t) := by
  cases e with
  | literal text =>
    rw [elements, bind_eq_done] at h
    obtain ⟨_, u, hwrite, h⟩ := h
    cases hwrite
    exact ⟨_, .literal text, h⟩
  | terminal name =>
    rw [elements, bind_eq_done] at h
    obtain ⟨_, u, hterminal, h⟩ := h
    exact ⟨u, terminal_elementRun hterminal, h⟩
  | symbol name =>
    rw [elements] at h
    split at h
    · next hself =>
      subst hself
      obtain ⟨below, u, hdeeper, h⟩ := bind_eq_done.1 h
      obtain ⟨hbelow, rfl⟩ := deeper_eq_done.1 hdeeper
      rw [count_bind_eq_done, bind_eq_done] at h
      obtain ⟨_, u, hrun, h⟩ := h
      exact ⟨u, .self hbelow hrun, h⟩
    · next hne =>
      obtain ⟨_, u, hrun, h⟩ := bind_eq_done.1 h
      exact ⟨u, .other hne hrun, h⟩

/-! ## Symbols -/

/-- The end of the expansion of a symbol, `n + 1` deep: of one without a rule, of one that has
a strategy, of one that is cut off, and of one that is written by an alternative. -/
inductive SymbolRun (g : Generator) (patience maxDepth n : Nat) (name : String) (depth : Nat)
    (param : Option String) (s : State σ) : State σ → Prop
  | undefined (hrule : g.grammar.rule? name = none) :
      SymbolRun g patience maxDepth n name depth param s
        (s.written (.word ("<" ++ name ++ ">")))
  | strategy {r : Rule} {plan : Strategy} {t : State σ} (hrule : g.grammar.rule? name = some r)
      (hplan : g.config.strategies[name]? = some plan)
      (hrun : Generator.strategy g patience (symbol g patience maxDepth n) depth param plan s =
        .done ((), t)) :
      SymbolRun g patience maxDepth n name depth param s t
  | truncated {r : Rule} (hrule : g.grammar.rule? name = some r)
      (hplan : g.config.strategies[name]? = none) (hrec : r.isRecursive = true)
      (hdepth : maxDepth ≤ depth) (hnone : r.nonRecursive = []) :
      SymbolRun g patience maxDepth n name depth param s
        { s with stats := s.stats.truncate }
  | alternative {r : Rule} {i : Nat} {p : Production} {source : σ} {t : State σ}
      {layerType : Option String} (hrule : g.grammar.rule? name = some r)
      (hplan : g.config.strategies[name]? = none) (hp : r.productions[i]? = some p)
      (hbound : r.isRecursive = true → maxDepth ≤ depth → i ∈ r.nonRecursive)
      (hrun : production g patience (symbol g patience maxDepth n) name depth param p
        { s with source } = .done ((), t))
      (hlayer : layerType = if p.isEmpty = false ∧ name = g.config.layerTypeSymbol then
        (t.page.textFrom? s.page.size).map fun cs => String.ofList (Text.trim cs)
        else t.layerType) :
      SymbolRun g patience maxDepth n name depth param s { t with layerType }

theorem production_eq_done_of_isEmpty {p : Production} (h : p.isEmpty = true) :
    production g patience expand self depth param p s = .done ((), s) := by
  rw [Production.isEmpty, List.isEmpty_iff] at h
  rw [production, h]
  rfl

theorem symbol_symbolRun {name : String}
    (h : symbol g patience maxDepth (n + 1) name depth param s = .done ((), t)) :
    SymbolRun g patience maxDepth n name depth param s t := by
  cases hrule : g.grammar.rule? name with
  | none =>
    rw [symbol, hrule] at h
    cases h
    exact .undefined hrule
  | some r =>
    cases hplan : g.config.strategies[name]? with
    | some plan =>
      rw [symbol, hrule, hplan] at h
      exact .strategy hrule hplan h
    | none =>
      rw [symbol, hrule, hplan] at h
      obtain ⟨choice, u, hchoice, h⟩ := bind_eq_done.1 h
      cases chooseAlternative_picks hchoice with
      | none hrec hdepth hnone =>
        cases h
        exact .truncated hrule hplan hrec hdepth hnone
      | @some i p source hp hbound =>
        dsimp only at h
        split at h
        · next hempty =>
          obtain ⟨-, rfl⟩ := pure_eq_done.1 h
          exact .alternative hrule hplan hp hbound (production_eq_done_of_isEmpty hempty)
            (by simp [hempty])
        · next hempty =>
          rw [Bool.not_eq_true] at hempty
          split at h
          · next hname =>
            obtain ⟨u, cs, hrun, hcs, rfl⟩ := asLayerType_eq_done h
            refine .alternative hrule hplan hp hbound hrun ?_
            rw [if_pos ⟨hempty, hname⟩, hcs, Option.map_some]
          · next hname =>
            refine .alternative (t := t) hrule hplan hp hbound h ?_
            rw [if_neg fun hand => hname hand.2]

/-! ## What every step keeps -/

/-- A relation between the states before and behind each finished run. -/
def Relates (R : State σ → State σ → Prop) (x : Expand σ α) : Prop :=
  ∀ s a t, x s = .done (a, t) → R s t

/-- A relation between the states before and behind a run, which steps in a row and a draw
keep. -/
structure Passes (R : State σ → State σ → Prop) : Prop where
  refl : ∀ s, R s s
  trans : ∀ {s t u}, R s t → R t u → R s u
  draw : ∀ (s : State σ) (source : σ), R s { s with source }

/-- A relation between the states before and behind a step, for every kind of step that does
not call another. -/
structure Steps (g : Generator) (R : State σ → State σ → Prop) : Prop extends Passes R where
  write : ∀ (s : State σ) (m : Mark), R s (s.written m)
  recur : ∀ (s : State σ) (depth : Nat), R s { s with stats := s.stats.recur depth }
  truncate : ∀ (s : State σ) {name : String} {r : Rule}, g.grammar.rule? name = some r →
    r.nonRecursive = [] → R s { s with stats := s.stats.truncate }
  layer : ∀ (s : State σ) (layerType : Option String), R s { s with layerType }

variable {R : State σ → State σ → Prop}

theorem Passes.elements (hR : Passes R) {es : List Element}
    (h : ∀ e ∈ es, ∀ s t, ElementRun g patience expand self depth param s e t → R s t) :
    Relates R (elements g patience expand self depth param es) := by
  induction es with
  | nil =>
    intro s a t hrun
    obtain ⟨-, rfl⟩ := pure_eq_done.1 hrun
    exact hR.refl s
  | cons e es ih =>
    intro s a t hrun
    rw [List.forall_mem_cons] at h
    obtain ⟨u, he, hes⟩ := elements_cons_eq_done hrun
    exact hR.trans (h.1 s u he) (ih h.2 u a t hes)

theorem Passes.productions (hR : Passes R) {ps : List Production}
    (h : ∀ p ∈ ps, Relates R (production g patience expand self depth param p)) :
    Relates R (productions g patience expand self depth param ps) := by
  induction ps with
  | nil =>
    intro s a t hrun
    obtain ⟨-, rfl⟩ := pure_eq_done.1 hrun
    exact hR.refl s
  | cons p ps ih =>
    intro s a t hrun
    rw [List.forall_mem_cons] at h
    obtain ⟨_, u, hp, hps⟩ := bind_eq_done.1 hrun
    exact hR.trans (h.1 s () u hp) (ih h.2 u a t hps)

theorem Passes.outputProductions (hR : Passes R) (required optional : List String)
    (probability : Float) {ps : List Production}
    (h : ∀ p ∈ ps, Relates R (production g patience expand self depth param p)) :
    Relates R (outputProductions g patience expand self depth param required optional
      probability ps) := by
  induction ps with
  | nil =>
    intro s a t hrun
    obtain ⟨-, rfl⟩ := pure_eq_done.1 hrun
    exact hR.refl s
  | cons p ps ih =>
    intro s a t hrun
    rw [List.forall_mem_cons] at h
    obtain ⟨isWritten, u, hdraw, hrest⟩ := bind_eq_done.1 hrun
    obtain ⟨source, -, rfl⟩ := draw_eq_done.1 hdraw
    refine hR.trans (hR.draw s source) ?_
    cases isWritten with
    | false => exact ih h.2 _ a t hrest
    | true =>
      obtain ⟨_, v, hp, hps⟩ := bind_eq_done.1 hrest
      exact hR.trans (h.1 _ () v hp) (ih h.2 v a t hps)

/-- What the alternatives of its item keep, a strategy keeps. -/
theorem Passes.strategy (hR : Passes R) {plan : Strategy}
    (h : ∀ r, g.grammar.rule? plan.item = some r → ∀ p ∈ r.productions,
      Relates R (production g patience expand plan.item depth param p)) :
    Relates R (Generator.strategy g patience expand depth param plan) := by
  intro s a t hrun
  cases hrule : g.grammar.rule? plan.item with
  | none =>
    rw [Generator.strategy, hrule] at hrun
    obtain ⟨-, rfl⟩ := pure_eq_done.1 hrun
    exact hR.refl s
  | some r =>
    have hall := h r hrule
    rw [Generator.strategy, hrule] at hrun
    cases plan with
    | allRequired item => exact hR.productions hall s a t hrun
    | output item required optional probability =>
      exact hR.outputProductions _ _ _ hall s a t hrun
    | subset item min max =>
      obtain ⟨_, _, hget, hrun⟩ := bind_eq_done.1 hrun
      cases hget
      obtain ⟨chosen, u, hdraw, hrun⟩ := bind_eq_done.1 hrun
      obtain ⟨source, -, rfl⟩ := draw_eq_done.1 hdraw
      obtain ⟨ps, u, hps, hrun⟩ := bind_eq_done.1 hrun
      have hmem := mem_of_mapM_alternative hps
      obtain ⟨-, rfl⟩ := mapM_alternative_eq_done hps
      exact hR.trans (hR.draw s source) (hR.productions (fun p hp => hall p (hmem p hp)) _ a t hrun)

theorem Steps.element (hR : Steps g R) (hexpand : ∀ name depth param,
    Relates R (expand name depth param)) {e : Element}
    (h : ElementRun g patience expand self depth param s e t) : R s t := by
  cases h with
  | literal text => exact hR.write s _
  | word => exact hR.write s _
  | value => exact hR.trans (hR.draw s _) (hR.write _ _)
  | self _ hrun => exact hR.trans (hR.recur s _) (hexpand _ _ _ _ _ _ hrun)
  | other _ hrun => exact hexpand _ _ _ _ _ _ hrun

theorem Steps.elements (hR : Steps g R) (hexpand : ∀ name depth param,
    Relates R (expand name depth param)) (es : List Element) :
    Relates R (elements g patience expand self depth param es) :=
  hR.toPasses.elements fun _ _ _ _ he => hR.element hexpand he

/-- What every step keeps, the expansion of a symbol keeps. -/
theorem Steps.symbol (hR : Steps g R) (n : Nat) : ∀ name depth param,
    Relates R (symbol g patience maxDepth n name depth param : Expand σ Unit) := by
  induction n with
  | zero =>
    intro name depth param s a t h
    cases h
  | succ n ih =>
    intro name depth param s a t h
    cases symbol_symbolRun h with
    | undefined => exact hR.write s _
    | strategy _ _ hrun =>
      exact hR.toPasses.strategy (fun r _ p _ => hR.elements ih p.elements) s () t hrun
    | truncated hrule _ _ _ hnone => exact hR.truncate s hrule hnone
    | @alternative _ _ _ source t _ _ _ _ _ hrun _ =>
      exact hR.trans (hR.draw s source)
        (hR.trans (hR.elements ih _ _ () t hrun) (hR.layer t _))

/-! ## Expansions -/

theorem expand_eq_ok (g : Generator) (limits : Limits) {name : String} {r : Rule}
    (hr : g.grammar.rule name = .ok r) (depth maxDepth : UInt64) (source : σ) :
    g.expand limits name depth maxDepth source = .ok (do
      let (_, s) ← symbol g limits.patience maxDepth.toNat limits.descent name depth.toNat none
        (g.start source)
      return finish s) := by
  rw [expand, hr]
  rfl

/-- An expansion that is done has expanded its symbol on an empty page. -/
theorem expand_eq_done {limits : Limits} {name : String} {depth maxDepth : UInt64}
    {source rest : σ} {e : Expansion}
    (h : g.expand limits name depth maxDepth source = .ok (.done (e, rest))) :
    ∃ t, symbol g limits.patience maxDepth.toNat limits.descent name depth.toNat none
      (g.start source) = .done ((), t) ∧ finish t = (e, rest) := by
  cases hr : g.grammar.rule name with
  | error err =>
    rw [expand, hr] at h
    cases h
  | ok r =>
    rw [expand_eq_ok g limits hr, Except.ok.injEq, Outcome.bind_eq_done] at h
    obtain ⟨⟨_, t⟩, hrun, hfinish⟩ := h
    exact ⟨t, hrun, Outcome.done.inj hfinish⟩

end

end NeuralArch.Generator
