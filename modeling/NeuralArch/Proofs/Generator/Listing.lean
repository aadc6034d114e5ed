import Mathlib.Data.Finset.Card
import NeuralArch.Proofs.Generator.Faultless
import NeuralArch.Proofs.Generator.Runs

/-!
# What strategies write

A symbol with a strategy writes alternatives of the strategy's item, in grammar
order and each at most once.  Which ones these are is up to the strategy: all of
them, those that the names of their parameters ask for, or some of those that
the layer being written admits.  Between them only the source moves on.

An optional parameter comes by chance, and the chance is clamped first, so what
the configuration says is decisive as soon as it is no proper chance: zero and
less for never, one and more for always.

* `Emits` — alternatives written one after another.
* `Decided`, `Selected`, `Meets` — what each strategy asks of them.
* `chance_clamp_of_le_zero`, `chance_clamp_of_one_le` — chances that are none.
* `symbol_emits` — what the expansion of a symbol with a strategy writes.
-/

namespace NeuralArch.Generator

open Float.Model (UnpackedFloat)
open Float.Model.UnpackedFloat (Sign)

/-! ## Chances that are none -/

theorem unpack_of_le_zero {p : Float} (h : p ≤ 0) (hnot : ¬ p < 0) :
    ∃ s, p.toModel.unpack = .zero s := by
  rw [Number.le_iff_compare] at h
  rw [Number.lt_iff_compare] at hnot
  change (p.toModel.unpack.compare (.zero .positive)).any (·.isLE) = true at h
  change ¬ p.toModel.unpack.compare (.zero .positive) = some .lt at hnot
  match hp : p.toModel.unpack with
  | .zero s => exact ⟨s, rfl⟩
  | .notANumber => rw [hp] at h; cases h
  | .infinity .positive => rw [hp] at h; cases h
  | .infinity .negative => rw [hp] at hnot; exact absurd rfl hnot
  | .finite .positive m e hm => rw [hp] at h; cases h
  | .finite .negative m e hm => rw [hp] at hnot; exact absurd rfl hnot

/-- What is clamped from below is a zero, of whatever sign. -/
theorem unpack_clamp_of_le_zero {p : Float} (h : p ≤ 0) :
    ∃ s, (clamp p).toModel.unpack = .zero s := by
  unfold clamp
  split
  · exact ⟨.positive, rfl⟩
  · next hnot =>
    obtain ⟨s, hs⟩ := unpack_of_le_zero h hnot
    have hone : ¬ 1 < p := by
      rw [Number.lt_iff_compare, hs]
      cases s <;> decide
    rw [if_neg hone]
    exact ⟨s, hs⟩

/-- A chance of zero asks for a word below zero. -/
theorem toUInt64_mul_of_zero {p : Float} {s : Sign} (h : p.toModel.unpack = .zero s) :
    (p * 0x10000000000000000).toUInt64.toNat = 0 := by
  have hmul : (p * 0x10000000000000000).toModel = Float.Model.pack (UnpackedFloat.mul
      Float.Model.Format.binary64 p.toModel.unpack (0x10000000000000000 : Float).toModel.unpack) :=
    rfl
  rw [Float.toUInt64, hmul, h]
  cases s <;> rfl

theorem not_lt_zero_of_one_le {p : Float} (h : 1 ≤ p) : ¬ p < 0 := by
  rw [Number.le_iff_compare] at h
  rw [Number.lt_iff_compare]
  show ¬ p.toModel.unpack.compare (.zero .positive) = some .lt
  match hp : p.toModel.unpack with
  | .zero _ => exact nofun
  | .notANumber => exact nofun
  | .infinity .positive => exact nofun
  | .finite .positive m e hm => exact nofun
  | .infinity .negative => rw [hp] at h; cases h
  | .finite .negative m e hm => rw [hp] at h; cases h

/-- What is clamped from above is one. -/
theorem clamp_beq_one_of_one_le {p : Float} (h : 1 ≤ p) : (clamp p == 1) = true := by
  have hzero := not_lt_zero_of_one_le h
  rw [clamp, if_neg hzero]
  split
  · rfl
  · next hone =>
    have hnumber : p.isNaN = false := by
      rw [Number.le_iff_compare] at h
      show p.toModel.unpack.isNaN = false
      cases hp : p.toModel.unpack with
      | notANumber => rw [hp] at h; cases h
      | _ => rfl
    obtain ⟨q, hq⟩ := exists_toRat?_of_between hnumber hzero hone
    have hrat : Number.toRat? 1 = some ((1 : ℕ) : ℚ) := Number.toRat?_ofNat (by norm_num)
    rw [Number.lt_iff_toRat hrat hq, not_lt] at hone
    rw [Number.le_iff_toRat hrat hq] at h
    exact (Number.beq_iff_toRat hq hrat).2 (le_antisymm hone h)

variable {σ : Type} [RandomSource σ]

theorem chance_clamp_of_le_zero {p : Float} (h : p ≤ 0) {source rest : σ} {b : Bool}
    (hrun : Draw.chance (clamp p) source = .done (b, rest)) : b = false := by
  obtain ⟨s, hs⟩ := unpack_clamp_of_le_zero h
  have hone : (clamp p == 1) = false := by
    show (((clamp p).toModel.unpack.compare (1 : Float).toModel.unpack) == some .eq) = false
    rw [hs]
    cases s <;> rfl
  rw [Draw.chance, if_neg (Bool.eq_false_iff.1 hone)] at hrun
  split at hrun
  · obtain ⟨word, _, -, hpure⟩ := Draw.bind_eq_done.1 hrun
    rw [toUInt64_mul_of_zero hs, Draw.pure_eq_done] at hpure
    rw [← hpure.1]
    simp
  · cases hrun

theorem chance_clamp_of_one_le {p : Float} (h : 1 ≤ p) {source rest : σ} {b : Bool}
    (hrun : Draw.chance (clamp p) source = .done (b, rest)) : b = true := by
  rw [Draw.chance, if_pos (clamp_beq_one_of_one_le h), Draw.pure_eq_done] at hrun
  exact hrun.1.symm

/-! ## What is asked of the alternatives -/

/-- Whether the parameter of a name is written, as far as that is not left to chance: by the
lists, and for an optional one by a probability that is none. -/
structure NameDecides (required optional : List String) (probability : Float) (name : String)
    (isWritten : Prop) : Prop where
  needed : name ∈ required → isWritten
  unlisted : name ∉ required → name ∉ optional → ¬ isWritten
  never : name ∉ required → probability ≤ 0 → ¬ isWritten
  always : name ∈ optional → 1 ≤ probability → isWritten

/-- Whether an alternative is written: its name decides, and without one it is not. -/
def Decided (required optional : List String) (probability : Float) (p : Production)
    (isWritten : Prop) : Prop :=
  (p.paramName? = none → ¬ isWritten) ∧
    ∀ name, p.paramName? = some name → NameDecides required optional probability name isWritten

/-- Whether a layer may get an alternative: any, if its type is not recorded or the rule table
does not know it, and else one that assigns a parameter of the type. -/
def Allowed (g : Generator) (layerType : Option String) (p : Production) : Prop :=
  ∀ layer names, layerType = some layer → g.rules.allowed? layer = some names →
    ∃ name, p.paramName? = some name ∧ name ∈ names

/-- Alternatives chosen for a layer between two bounds, from those it may get: as many as the
bounds ask for and there are, and with the anchor of its type. -/
structure Selected (g : Generator) (layerType : Option String) (ps : List Production)
    (low high : Nat) (available : Finset Nat) (is : List Nat) : Prop where
  available_iff : ∀ i, i ∈ available ↔ ∃ p, ps[i]? = some p ∧ Allowed g layerType p
  subset : ∀ i ∈ is, i ∈ available
  low_le : min low (min high available.card) ≤ is.length
  le_high : is.length ≤ min high available.card
  anchored : ∀ layer anchor, layerType = some layer → g.config.anchors[layer]? = some anchor →
    is ≠ [] → (∃ i ∈ available, ps[i]?.bind Production.paramName? = some anchor) →
    ∃ i ∈ is, ps[i]?.bind Production.paramName? = some anchor

/-- What a strategy asks of the indices of the alternatives that it writes. -/
def Meets (g : Generator) (layerType : Option String) (ps : List Production) (is : List Nat) :
    Strategy → Prop
  | .allRequired _ => is = List.range ps.length
  | .output _ required optional probability =>
      ∀ i p, ps[i]? = some p → Decided required optional probability p (i ∈ is)
  | .subset _ low high => ∃ available, Selected g layerType ps low high available is

/-! ## Choices -/

section

variable {g : Generator} {patience maxDepth depth n : Nat} {param : Option String}
  {expand : String → Nat → Option String → Expand σ Unit} {item : String}
  {ps qs : List Production} {is : List Nat} {s t : State σ}

theorem isWritten_decided {required optional : List String} {probability : Float}
    {p : Production} {source rest : σ} {b : Bool}
    (h : isWritten required optional (clamp probability) p source = .done (b, rest)) :
    Decided required optional probability p (b = true) := by
  rw [isWritten] at h
  cases hname : p.paramName? with
  | none =>
    rw [hname, Draw.pure_eq_done] at h
    refine ⟨fun _ hb => Bool.false_ne_true (h.1.trans hb), fun _ heq => ?_⟩
    rw [hname] at heq
    cases heq
  | some name =>
    refine ⟨fun heq => (by rw [hname] at heq; cases heq), fun name' heq => ?_⟩
    obtain rfl := Option.some.inj (hname.symm.trans heq)
    simp only [hname, List.contains_iff_mem] at h
    split at h
    · next hrequired =>
      obtain ⟨rfl, -⟩ := Draw.pure_eq_done.1 h
      exact ⟨fun _ => rfl, fun hnot => absurd hrequired hnot, fun hnot => absurd hrequired hnot,
        fun _ _ => rfl⟩
    · next hrequired =>
      split at h
      · next hoptional =>
        refine ⟨fun hmem => absurd hmem hrequired, fun _ hnot => absurd hoptional hnot,
          fun _ hprobability => ?_, fun _ hprobability => chance_clamp_of_one_le hprobability h⟩
        rw [chance_clamp_of_le_zero hprobability h]
        exact Bool.false_ne_true
      · next hoptional =>
        obtain ⟨rfl, -⟩ := Draw.pure_eq_done.1 h
        exact ⟨fun hmem => absurd hmem hrequired, fun _ _ => Bool.false_ne_true,
          fun _ _ => Bool.false_ne_true, fun hmem => absurd hmem hoptional⟩

theorem admits_iff_allowed {layerType : Option String} {p : Production} :
    admits (layerType.bind g.rules.allowed?) p = true ↔ Allowed g layerType p := by
  unfold admits Allowed
  cases layerType with
  | none => simp
  | some layer =>
    rw [Option.bind_some]
    cases hnames : g.rules.allowed? layer with
    | none =>
      refine ⟨fun _ layer' names heq hallowed => ?_, fun _ => rfl⟩
      rw [← Option.some.inj heq, hnames] at hallowed
      cases hallowed
    | some names =>
      dsimp only
      rw [Option.any_eq_true]
      constructor
      · rintro ⟨name, hname, hmem⟩ layer' names' heq hallowed
        rw [← Option.some.inj heq, hnames, Option.some.injEq] at hallowed
        exact ⟨name, hname, hallowed ▸ Std.ExtTreeSet.contains_iff_mem.1 hmem⟩
      · intro h
        obtain ⟨name, hname, hmem⟩ := h layer names rfl hnames
        exact ⟨name, hname, Std.ExtTreeSet.contains_iff_mem.2 hmem⟩

theorem mem_admitted_iff {layerType : Option String} {i : Nat} :
    i ∈ g.admitted layerType ps ↔ ∃ p, ps[i]? = some p ∧ Allowed g layerType p := by
  simp only [admitted, List.mem_filter, List.mem_range, ← admits_iff_allowed]
  constructor
  · rintro ⟨hi, h⟩
    rw [List.getElem?_eq_getElem hi] at h ⊢
    exact ⟨_, rfl, h⟩
  · rintro ⟨p, hp, h⟩
    rw [hp]
    exact ⟨(List.getElem?_eq_some_iff.1 hp).1, h⟩

/-- The anchor that is available is found. -/
theorem exists_anchor? {layer anchor : String} {available : List Nat}
    (hanchor : g.config.anchors[layer]? = some anchor)
    (h : ∃ i ∈ available, ps[i]?.bind Production.paramName? = some anchor) :
    ∃ a, g.anchor? (some layer) ps available = some a := by
  obtain ⟨i, hi, hname⟩ := h
  have hfound : (available.find? fun i => (ps[i]?.bind Production.paramName?) == some anchor).isSome
      = true := by
    rw [List.find?_isSome]
    exact ⟨i, hi, by rw [hname, beq_self_eq_true]⟩
  obtain ⟨a, ha⟩ := Option.isSome_iff_exists.1 hfound
  refine ⟨a, ?_⟩
  unfold anchor?
  simp only [Option.bind_eq_bind, Option.bind_some, hanchor]
  exact ha

/-- What is chosen for a layer is what it asks for. -/
theorem Chosen.selected {layerType : Option String} {low high : Nat}
    (h : Chosen (g.admitted layerType ps) (g.anchor? layerType ps (g.admitted layerType ps))
      (Nat.min low (Nat.min high (g.admitted layerType ps).length))
      (Nat.min high (g.admitted layerType ps).length) is) :
    Selected g layerType ps low high (g.admitted layerType ps).toFinset is := by
  have hcard := List.toFinset_card_of_nodup (admitted_nodup g layerType ps)
  refine ⟨fun i => by rw [List.mem_toFinset, mem_admitted_iff],
    fun i hi => List.mem_toFinset.2 (h.admitted i hi), by rw [hcard]; exact h.low_le,
    by rw [hcard]; exact h.le_high, ?_⟩
  rintro layer anchor rfl hanchor hne ⟨i, hi, hname⟩
  obtain ⟨a, ha⟩ := exists_anchor? hanchor ⟨i, List.mem_toFinset.1 hi, hname⟩
  obtain ⟨-, layer', param, hlayer, hparam, hnamed⟩ := mem_of_anchor? ha
  obtain rfl := Option.some.inj hlayer
  obtain rfl := Option.some.inj (hanchor.symm.trans hparam)
  exact ⟨a, h.anchored hne a ha, hnamed⟩

/-! ## Writing -/

/-- Alternatives of an item written one after another, in front of each and behind the last
nothing but draws. -/
inductive Emits (g : Generator) (patience : Nat)
    (expand : String → Nat → Option String → Expand σ Unit) (item : String) (depth : Nat)
    (param : Option String) (ps : List Production) : List Nat → State σ → State σ → Prop
  | done (s : State σ) (source : σ) :
      Emits g patience expand item depth param ps [] s { s with source }
  | emit {i : Nat} {p : Production} {is : List Nat} {s t u : State σ} (source : σ)
      (hp : ps[i]? = some p)
      (hrun : production g patience expand item depth param p { s with source } = .done ((), t))
      (hrest : Emits g patience expand item depth param ps is t u) :
      Emits g patience expand item depth param ps (i :: is) s u

/-- Draws in front of alternatives belong to them. -/
theorem Emits.drawn {source : σ}
    (h : Emits g patience expand item depth param ps is { s with source } t) :
    Emits g patience expand item depth param ps is s t := by
  cases h with
  | done => exact .done s _
  | emit rest hp hrun hrest => exact .emit rest hp hrun hrest

theorem emits_productions (his : List.Forall₂ (fun i p => ps[i]? = some p) is qs)
    (h : productions g patience expand item depth param qs s = .done ((), t)) :
    Emits g patience expand item depth param ps is s t := by
  induction his generalizing s with
  | nil =>
    obtain ⟨-, rfl⟩ := pure_eq_done.1 h
    exact .done s s.source
  | cons hp _ ih =>
    obtain ⟨_, u, hrun, hrest⟩ := bind_eq_done.1 h
    exact .emit s.source hp hrun (ih hrest)

/-- The alternatives from a place on: those that are written stand from there on, too. -/
theorem emits_outputProductions {required optional : List String} {probability : Float}
    {before : List Production} (hps : ps = before ++ qs)
    (h : outputProductions g patience expand item depth param required optional
      (clamp probability) qs s = .done ((), t)) :
    ∃ is, Emits g patience expand item depth param ps is s t ∧ is.Pairwise (· < ·) ∧
      (∀ i ∈ is, before.length ≤ i) ∧
      ∀ j p, qs[j]? = some p →
        Decided required optional probability p (before.length + j ∈ is) := by
  induction qs generalizing before s with
  | nil =>
    obtain ⟨-, rfl⟩ := pure_eq_done.1 h
    exact ⟨[], .done s s.source, .nil, by simp, by simp⟩
  | cons q qs ih =>
    obtain ⟨b, u, hdraw, h⟩ := bind_eq_done.1 h
    obtain ⟨source, hb, rfl⟩ := draw_eq_done.1 hdraw
    have hdecided := isWritten_decided hb
    have hfirst : ps[before.length]? = some q := by
      rw [hps, List.getElem?_append_right (Nat.le_refl _), Nat.sub_self]
      rfl
    have hsplit : ps = (before ++ [q]) ++ qs := by
      rw [hps, List.append_assoc]
      rfl
    have hlength : (before ++ [q]).length = before.length + 1 := List.length_append
    cases b with
    | false =>
      obtain ⟨is, hemits, hascending, hge, hrest⟩ := ih hsplit h
      rw [hlength] at hge hrest
      refine ⟨is, hemits.drawn, hascending, fun i hi => Nat.le_of_succ_le (hge i hi), ?_⟩
      rintro (_ | j) p hp
      · obtain rfl := Option.some.inj hp
        have hnot : before.length ∉ is := fun hmem => Nat.not_succ_le_self _ (hge _ hmem)
        rw [Nat.add_zero]
        simpa [hnot] using hdecided
      · have hj := hrest j p hp
        rwa [Nat.add_right_comm, Nat.add_assoc] at hj
    | true =>
      obtain ⟨_, v, hrun, h⟩ := bind_eq_done.1 h
      obtain ⟨is, hemits, hascending, hge, hrest⟩ := ih hsplit h
      rw [hlength] at hge hrest
      refine ⟨before.length :: is, .emit source hfirst hrun hemits,
        List.pairwise_cons.2 ⟨fun i hi => hge i hi, hascending⟩, ?_, ?_⟩
      · exact List.forall_mem_cons.2
          ⟨Nat.le_refl _, fun i hi => Nat.le_of_succ_le (hge i hi)⟩
      · rintro (_ | j) p hp
        · obtain rfl := Option.some.inj hp
          simpa using hdecided
        · have hj := hrest j p hp
          rw [Nat.add_right_comm, Nat.add_assoc] at hj
          have hne : before.length + (j + 1) ≠ before.length := by omega
          simpa [hne] using hj

/-- The alternatives that a strategy writes; of an item without a rule there are none. -/
def itemProductions (g : Generator) (plan : Strategy) : List Production :=
  ((g.grammar.rule? plan.item).map Rule.productions).getD []

theorem forall₂_getElem?_range (ps : List Production) :
    List.Forall₂ (fun i p => ps[i]? = some p) (List.range ps.length) ps := by
  rw [List.forall₂_iff_get]
  refine ⟨List.length_range, fun i hi hp => ?_⟩
  simp

/-- A strategy writes alternatives of its item in grammar order, those that it asks for. -/
theorem strategy_emits {plan : Strategy}
    (h : strategy g patience expand depth param plan s = .done ((), t)) :
    ∃ is, Emits g patience expand plan.item depth param (itemProductions g plan) is s t ∧
      is.Pairwise (· < ·) ∧ Meets g s.layerType (itemProductions g plan) is plan := by
  cases hrule : g.grammar.rule? plan.item with
  | none =>
    rw [strategy, hrule] at h
    obtain ⟨-, rfl⟩ := pure_eq_done.1 h
    rw [itemProductions, hrule]
    refine ⟨[], .done s s.source, .nil, ?_⟩
    cases plan with
    | allRequired item => rfl
    | output item required optional probability => exact fun i p hp => by simp at hp
    | subset item low high => exact ⟨∅, by simp, by simp, by simp, by simp, by simp⟩
  | some r =>
    have hps : itemProductions g plan = r.productions := by rw [itemProductions, hrule]; rfl
    rw [strategy, hrule] at h
    rw [hps]
    cases plan with
    | allRequired item =>
      exact ⟨_, emits_productions (forall₂_getElem?_range r.productions) h,
        List.pairwise_lt_range, rfl⟩
    | output item required optional probability =>
      obtain ⟨is, hemits, hascending, -, hdecided⟩ :=
        emits_outputProductions (List.nil_append r.productions).symm h
      refine ⟨is, hemits, hascending, fun i p hp => ?_⟩
      have hi := hdecided i p hp
      rwa [List.length_nil, Nat.zero_add] at hi
    | subset item low high =>
      obtain ⟨_, _, hget, h⟩ := bind_eq_done.1 h
      cases hget
      obtain ⟨is, _, hdraw, h⟩ := bind_eq_done.1 h
      obtain ⟨source, hchosen, rfl⟩ := draw_eq_done.1 hdraw
      obtain ⟨qs, _, hqs, h⟩ := bind_eq_done.1 h
      obtain ⟨hlookup, rfl⟩ := mapM_alternative_eq_done hqs
      have hchoice := gives_chooseSubset g patience s.layerType r.productions low high s.source
      rw [hchosen] at hchoice
      exact ⟨is, (emits_productions hlookup h).drawn, hchoice.ascending, _, hchoice.selected⟩

/-- The expansion of a symbol with a strategy writes alternatives of the strategy's item, in
grammar order and each at most once: those that the strategy asks for in view of the layer type
recorded before.  Only a symbol without a rule is written as it is. -/
theorem symbol_emits {name : String} {plan : Strategy}
    (hplan : g.config.strategies[name]? = some plan)
    (h : symbol g patience maxDepth (n + 1) name depth param s = .done ((), t)) :
    (g.grammar.rule? name = none → t = s.written (.word ("<" ++ name ++ ">"))) ∧
    ((g.grammar.rule? name).isSome = true →
      ∃ is, Emits g patience (symbol g patience maxDepth n) plan.item depth param
          (itemProductions g plan) is s t ∧
        is.Pairwise (· < ·) ∧ Meets g s.layerType (itemProductions g plan) is plan) := by
  cases hrule : g.grammar.rule? name with
  | none =>
    rw [symbol, hrule] at h
    cases h
    exact ⟨fun _ => rfl, fun hsome => absurd hsome (by simp)⟩
  | some r =>
    rw [symbol, hrule, hplan] at h
    exact ⟨fun hnone => absurd hnone (by simp), fun _ => strategy_emits h⟩

end

/-- Two parameters at least, but one at most. -/
def layerPlan : Strategy := .subset "item" 2 1

/-- One parameter is required and one certain. -/
def outputPlan : Strategy := .output "item" ["units"] ["dropout"] 1.5

/-- A generator with these two lists. -/
def parameterLists : Generator :=
  { ofGrammar (Grammar.ofAlternatives [("layer", ["<item>"]), ("output", ["<item>"]),
      ("item", ["\"filters\"", "\"=\"", "\"3\""]),
      ("item", ["\"activation\"", "\"=\"", "\"relu\""]),
      ("item", ["\"dropout\"", "\"=\"", "\"0.5\""]),
      ("item", ["\"units\"", "\"=\"", "\"8\""])]) with
    config := { Config.standard with
      strategies := Std.ExtTreeMap.ofList [("layer", layerPlan), ("output", outputPlan)] } }

/-- The state in which a list of a dense layer is written. -/
def denseState : State WordSource :=
  { parameterLists.start (WordSource.ofWords [0, 0]) with layerType := some "dense" }

theorem exists_run_of_isDone {τ : Type} {x : Outcome (Unit × State τ)} (h : x.isDone = true) :
    ∃ t, x = .done ((), t) := by
  cases x with
  | done r => exact ⟨r.2, rfl⟩
  | _ => cases h

theorem symbol_emits_parameterLists :
    (∃ t, symbol parameterLists 8 3 2 "layer" 0 none denseState = .done ((), t) ∧
      ∃ is, Emits parameterLists 8 (symbol parameterLists 8 3 1) "item" 0 none
          (itemProductions parameterLists layerPlan) is denseState t ∧
        is.Pairwise (· < ·) ∧
        Meets parameterLists (some "dense") (itemProductions parameterLists layerPlan) is
          layerPlan) ∧
    ∃ t, symbol parameterLists 8 3 2 "output" 0 none denseState = .done ((), t) ∧
      ∃ is, Emits parameterLists 8 (symbol parameterLists 8 3 1) "item" 0 none
          (itemProductions parameterLists outputPlan) is denseState t ∧
        is.Pairwise (· < ·) ∧
        Meets parameterLists (some "dense") (itemProductions parameterLists outputPlan) is
          outputPlan := by
  have hlayer : parameterLists.config.strategies["layer"]? = some layerPlan := by decide +kernel
  have houtput : parameterLists.config.strategies["output"]? = some outputPlan := by
    decide +kernel
  have hrules : (parameterLists.grammar.rule? "layer").isSome = true ∧
      (parameterLists.grammar.rule? "output").isSome = true := by decide +kernel
  constructor
  · obtain ⟨t, h⟩ := exists_run_of_isDone
      (x := symbol parameterLists 8 3 2 "layer" 0 none denseState) (by decide +kernel)
    exact ⟨t, h, (symbol_emits hlayer h).2 hrules.1⟩
  · obtain ⟨t, h⟩ := exists_run_of_isDone
      (x := symbol parameterLists 8 3 2 "output" 0 none denseState) (by decide +kernel)
    exact ⟨t, h, (symbol_emits houtput h).2 hrules.2⟩

end NeuralArch.Generator
