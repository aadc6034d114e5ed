import Mathlib.Data.List.Chain
import Mathlib.Logic.Relation
import NeuralArch.Proofs.Generator.Runs
import NeuralArch.Proofs.Grammar.Construction
import NeuralArch.Proofs.Random.Ending

/-!
# When expansions come to an end

A symbol leads to the symbols that its alternatives refer to, itself left out,
since the depth of self-recursion is bounded; with a strategy it leads to those
that the alternatives of the strategy's item refer to, the item and the symbol
not left out.  If no cycle can be reached from a symbol, its expansion comes to
an end, however its alternatives branch and whether or not any of them is free
of self-recursion.

The descent takes one step for each symbol on the way, and one for each level
of self-recursion below the bound.  A strategy does not look at the bound, and the
depth behind its item may be any depth: in a build without checks it starts again
at zero.  So the order is lexicographic, first how far a symbol leads and then the
depth that is left, and for each rule on the way all levels are counted.

* `LeadsTo` — what a symbol leads to; `HeightLe` — how far that goes on.
* `heightLe_of_acyclic` — without cycles it goes on no further than the rules.
* `Ends`, `ends_symbol` — expansions that do not run out of descent.
* `agrees_symbol` — more descent changes nothing that has come to an end.
* `expand_ends` — expansions end within a bound that no draw changes.
-/

namespace NeuralArch.Generator

open Relation

/-! ## What leads to what -/

/-- A symbol leads to another one with a rule: without a strategy, through its own alternatives
and not to itself; with one, through those of the strategy's item. -/
inductive LeadsTo (g : Generator) (x y : String) : Prop
  | alternative {r : Rule} {p : Production} (hplan : g.config.strategies[x]? = none)
      (hrule : g.grammar.rule? x = some r) (hp : p ∈ r.productions) (hy : .symbol y ∈ p.elements)
      (hne : y ≠ x) (htarget : (g.grammar.rule? y).isSome = true) : LeadsTo g x y
  | item {plan : Strategy} {r : Rule} {p : Production}
      (hplan : g.config.strategies[x]? = some plan) (hrule : g.grammar.rule? plan.item = some r)
      (hp : p ∈ r.productions) (hy : .symbol y ∈ p.elements)
      (htarget : (g.grammar.rule? y).isSome = true) : LeadsTo g x y

/-- From no symbol that can be reached one gets back to it. -/
def Acyclic (g : Generator) (name : String) : Prop :=
  ∀ z, ReflTransGen (LeadsTo g) name z → ¬ TransGen (LeadsTo g) z z

/-- From a symbol one gets on by `k` steps at most. -/
def HeightLe (g : Generator) : Nat → String → Prop
  | 0, x => ∀ y, ¬ LeadsTo g x y
  | k + 1, x => ∀ y, LeadsTo g x y → HeightLe g k y

variable {g : Generator}

theorem LeadsTo.target {x y : String} (h : LeadsTo g x y) :
    (g.grammar.rule? y).isSome = true := by
  cases h with
  | alternative _ _ _ _ _ htarget => exact htarget
  | item _ _ _ _ htarget => exact htarget

/-- A symbol without such a height begins a longer walk. -/
theorem exists_walk {k : Nat} {x : String} (h : ¬ HeightLe g k x) :
    ∃ ys, ys.length = k + 1 ∧ List.IsChain (LeadsTo g) (x :: ys) := by
  induction k generalizing x with
  | zero =>
    rw [HeightLe, not_forall] at h
    obtain ⟨y, hy⟩ := h
    exact ⟨[y], rfl, .cons_cons (not_not.1 hy) (.singleton y)⟩
  | succ k ih =>
    rw [HeightLe, not_forall] at h
    obtain ⟨y, hy⟩ := h
    rw [Classical.not_imp] at hy
    obtain ⟨ys, hlength, hchain⟩ := ih hy.2
    exact ⟨y :: ys, by rw [List.length_cons, hlength], .cons_cons hy.1 hchain⟩

/-- What a walk passes has a rule. -/
theorem mem_rules_of_walk {x : String} {ys : List String}
    (h : List.IsChain (LeadsTo g) (x :: ys)) : ∀ y ∈ ys, y ∈ g.grammar.rules := by
  induction ys generalizing x with
  | nil => simp
  | cons y ys ih =>
    rw [List.isChain_cons_cons] at h
    have hy : y ∈ g.grammar.rules := by
      have htarget := h.1.target
      rw [Grammar.rule?, Std.ExtTreeMap.isSome_getElem?_eq_contains] at htarget
      exact Std.ExtTreeMap.contains_iff_mem.1 htarget
    exact List.forall_mem_cons.2 ⟨hy, ih h.2⟩

theorem Acyclic.of_leadsTo {x y : String} (hacyclic : g.Acyclic x) (h : LeadsTo g x y) :
    g.Acyclic y :=
  fun z hz => hacyclic z (.head h hz)

/-- A walk leads from its first symbol to each other one. -/
theorem transGen_of_walk {x : String} {ys : List String}
    (h : List.IsChain (LeadsTo g) (x :: ys)) : ∀ y ∈ ys, TransGen (LeadsTo g) x y := by
  induction ys generalizing x with
  | nil => simp
  | cons y ys ih =>
    rw [List.isChain_cons_cons] at h
    exact List.forall_mem_cons.2 ⟨.single h.1, fun z hz => .head h.1 (ih h.2 z hz)⟩

/-- Without cycles a walk passes no symbol twice. -/
theorem nodup_of_walk {x : String} {ys : List String} (hacyclic : g.Acyclic x)
    (h : List.IsChain (LeadsTo g) (x :: ys)) : (x :: ys).Nodup := by
  have hx : x ∉ ys := fun hmem => hacyclic x .refl (transGen_of_walk h x hmem)
  induction ys generalizing x with
  | nil => simp
  | cons y ys ih =>
    have htail := List.isChain_cons_cons.1 h
    have hy : g.Acyclic y := hacyclic.of_leadsTo htail.1
    have hnot : y ∉ ys := fun hmem => hy y .refl (transGen_of_walk htail.2 y hmem)
    exact List.nodup_cons.2 ⟨hx, ih hy htail.2 hnot⟩

/-- Without cycles the longest walk passes each rule once at most. -/
theorem heightLe_of_acyclic {x : String} (hacyclic : g.Acyclic x) :
    HeightLe g g.grammar.rules.size x := by
  by_contra h
  obtain ⟨ys, hlength, hwalk⟩ := exists_walk h
  have hnodup : ys.Nodup := (nodup_of_walk hacyclic hwalk).of_cons
  have hsubset : ys ⊆ g.grammar.rules.keys := fun y hy =>
    Std.ExtTreeMap.mem_keys.2 (mem_rules_of_walk hwalk y hy)
  have hle := (hnodup.subperm hsubset).length_le
  rw [Std.ExtTreeMap.length_keys, hlength] at hle
  omega

/-- There are no cycles where something falls with every step. -/
theorem acyclic_of_rank (rank : String → Nat) (h : ∀ x y, LeadsTo g x y → rank y < rank x)
    (name : String) : g.Acyclic name := by
  have hfalls : ∀ x y, TransGen (LeadsTo g) x y → rank y < rank x := by
    intro x y hxy
    induction hxy with
    | single hstep => exact h _ _ hstep
    | tail _ hstep ih => exact Nat.lt_trans (h _ _ hstep) ih
  intro z _ hz
  exact Nat.lt_irrefl _ (hfalls z z hz)

theorem HeightLe.of_leadsTo {k : Nat} {x y : String} (hx : HeightLe g k x)
    (hxy : LeadsTo g x y) : ∃ j, k = j + 1 ∧ HeightLe g j y := by
  cases k with
  | zero => exact absurd hxy (hx y)
  | succ j => exact ⟨j, rfl, hx y hxy⟩

/-! ## Steps that end -/

variable {σ : Type} {patience maxDepth depth n : Nat} {param : Option String}

theorem ends_write (m : Layout.Mark) : Ends (Expand.write m : Expand σ Unit) := ends_step _

theorem ends_get : Ends (get : Expand σ (State σ)) := ends_step _

theorem ends_count (f : Stats → Stats) : Ends (Expand.count f : Expand σ Unit) := ends_step _

theorem ends_deeper (g : Generator) (depth : Nat) : Ends (deeper g depth : Expand σ Nat) := by
  rw [deeper]
  cases g.next? depth with
  | some below => exact ends_pure below
  | none => exact ends_fault _

theorem ends_fail (f : Fault) {α : Type} : Ends (Expand.fail f : Expand σ α) := ends_fault f

theorem ends_draw {α : Type} {d : Draw σ α} (hd : Ends d) : Ends (Expand.draw d) :=
  fun s => bind_ne_unfinished (hd s.source) fun r _ => by simp

theorem ends_alternative (r : Rule) (i : Nat) : Ends (alternative r i : Expand σ Production) := by
  rw [alternative]
  cases r.productions[i]? with
  | some p => exact ends_pure p
  | none => exact ends_fail _

theorem ends_asLayerType {body : Expand σ Unit} (hbody : Ends body) :
    Ends (asLayerType body) := by
  refine ends_get.seq fun s => hbody.seq fun _ => ends_get.seq fun t => ?_
  cases t.page.textFrom? s.page.size with
  | some cs => exact ends_step _
  | none => exact ends_fail _

theorem agrees_asLayerType {body body' : Expand σ Unit} (h : Agrees body body') :
    Agrees (asLayerType body) (asLayerType body') :=
  (Agrees.refl _).bind fun _ => h.bind fun _ => .refl _

variable [RandomSource σ]

theorem ends_chooseAlternative (r : Rule) :
    Ends (chooseAlternative patience maxDepth depth r : Expand σ (Option Production)) := by
  rw [chooseAlternative]
  split
  · refine (ends_draw (Draw.ends_choose _ _)).seq fun choice => ?_
    cases choice with
    | some i => exact (ends_alternative r i).map some
    | none => exact (ends_count _).seq fun _ => ends_pure none
  · exact (ends_draw (Draw.ends_below _ _ _)).seq fun i => (ends_alternative r i).map some

theorem ends_chooseSubset (layerType : Option String) (ps : List Production) (min max : Nat) :
    Ends (g.chooseSubset patience layerType ps min max : Draw σ (List Nat)) := by
  refine Ends.seq (Draw.ends_below _ _ _) fun extra => ?_
  dsimp only
  split
  · exact ends_pure []
  · unfold chooseIndices
    dsimp only
    split
    · exact Draw.ends_fail _
    · exact (Draw.ends_indices _ _ _).seq fun drawn => ends_pure _

theorem ends_isWritten (required optional : List String) (probability : Float)
    (p : Production) : Ends (isWritten required optional probability p : Draw σ Bool) := by
  rw [isWritten]
  cases p.paramName? with
  | none => exact ends_pure false
  | some name =>
    dsimp only
    split
    · exact ends_pure true
    · split
      · exact Draw.ends_chance _
      · exact ends_pure false

/-! ## Elements and productions that end -/

section

variable {expand : String → Nat → Option String → Expand σ Unit} {self : String}

/-- The symbols of elements end, at the depth at which they are expanded. -/
def EndsInside (g : Generator) (expand : String → Nat → Option String → Expand σ Unit)
    (self : String) (depth : Nat) (es : List Element) : Prop :=
  ∀ name, .symbol name ∈ es → ∀ below, g.depthInside? self depth name = some below → ∀ param,
    Ends (expand name below param)

theorem ends_elements {es : List Element} (h : EndsInside g expand self depth es) :
    Ends (elements g patience expand self depth param es) := by
  induction es with
  | nil => exact ends_pure ()
  | cons e es ih =>
    have htail := ih fun name hname => h name (List.mem_cons_of_mem _ hname)
    cases e with
    | literal text => exact (ends_write _).seq fun _ => htail
    | terminal name =>
      refine Ends.seq ?_ fun _ => htail
      rw [terminal]
      split
      · exact (ends_draw (Draw.ends_sample _ _ _ _)).seq fun value => ends_write _
      · exact ends_write _
    | symbol name =>
      have hname := h name (List.mem_cons_self ..)
      rw [elements]
      split
      · next hself =>
        subst hself
        refine (ends_deeper g depth).bind fun s below t hdeeper => ?_
        have hbelow := depthInside?_self name ▸ (deeper_eq_done.1 hdeeper).1
        exact (ends_count _).seq fun _ => (hname below hbelow param).seq fun _ => htail
      · next hne => exact (hname depth (depthInside?_of_ne hne) param).seq fun _ => htail

theorem ends_productions {ps : List Production}
    (h : ∀ p ∈ ps, EndsInside g expand self depth p.elements) :
    Ends (productions g patience expand self depth param ps) := by
  induction ps with
  | nil => exact ends_pure ()
  | cons p ps ih =>
    rw [List.forall_mem_cons] at h
    exact (ends_elements h.1).seq fun _ => ih h.2

theorem ends_outputProductions {ps : List Production} (required optional : List String)
    (probability : Float) (h : ∀ p ∈ ps, EndsInside g expand self depth p.elements) :
    Ends (outputProductions g patience expand self depth param required optional probability
      ps) := by
  induction ps with
  | nil => exact ends_pure ()
  | cons p ps ih =>
    rw [List.forall_mem_cons] at h
    refine (ends_draw (ends_isWritten _ _ _ _)).seq fun isWritten => ?_
    cases isWritten with
    | true => exact (ends_elements h.1).seq fun _ => ih h.2
    | false => exact ih h.2

/-- A strategy ends if the alternatives of its item do. -/
theorem ends_strategy {plan : Strategy} (h : ∀ r, g.grammar.rule? plan.item = some r →
      ∀ p ∈ r.productions, EndsInside g expand plan.item depth p.elements) :
    Ends (Generator.strategy g patience expand depth param plan) := by
  cases hrule : g.grammar.rule? plan.item with
  | none =>
    rw [Generator.strategy, hrule]
    exact ends_pure ()
  | some r =>
    have hall := h r hrule
    rw [Generator.strategy, hrule]
    cases plan with
    | allRequired item => exact ends_productions hall
    | output item required optional probability => exact ends_outputProductions _ _ _ hall
    | subset item min max =>
      refine ends_get.seq fun s => ?_
      refine (ends_draw (ends_chooseSubset _ _ _ _)).seq fun chosen => ?_
      refine (ends_mapM (ends_alternative r) chosen).bind fun s ps t hps => ?_
      exact ends_productions fun p hp => hall p (mem_of_mapM_alternative hps p hp)

end

/-! ## Symbols that end -/

theorem ends_symbol_of_undefined {name : String} (hrule : g.grammar.rule? name = none) :
    Ends (symbol g patience maxDepth (n + 1) name depth param : Expand σ Unit) := by
  rw [symbol, hrule]
  exact ends_write _

/-- An alternative that may be chosen at the bound does not refer to its symbol. -/
theorem lt_of_symbol_mem (hbuilt : g.grammar.Built) {name : String} {r : Rule} {i : Nat}
    {p : Production} (hrule : g.grammar.rule? name = some r) (hp : r.productions[i]? = some p)
    (hbound : r.isRecursive = true → maxDepth ≤ depth → i ∈ r.nonRecursive)
    (hself : .symbol name ∈ p.elements) : depth < maxDepth := by
  have hrec := hbuilt.isRecursive hrule (List.mem_of_getElem? hp) hself
  by_contra hge
  exact hbuilt.not_mem_of_mem_nonRecursive hrule hp (hbound hrec (by omega)) hself

/-- A descent ends that has all levels of self-recursion for each symbol below its own, and for
its own those that are left.  One more step is for a symbol without a rule, and one for running
out. -/
theorem ends_symbol (hbuilt : g.grammar.Built) (hmax : maxDepth < Number.wordCount) {k : Nat}
    {name : String} (hheight : HeightLe g k name)
    (hn : k * (maxDepth + 2) + (maxDepth - depth) + 2 ≤ n) :
    Ends (symbol g patience maxDepth n name depth param : Expand σ Unit) := by
  induction n generalizing k name depth param with
  | zero => omega
  | succ n ih =>
    -- A symbol that is led to is lower, whatever its depth is, and one without a rule needs one
    -- step only.
    have hlower : ∀ y, ((g.grammar.rule? y).isSome = true → LeadsTo g name y) → ∀ below param,
        Ends (symbol g patience maxDepth n y below param : Expand σ Unit) := by
      intro y hy below param
      cases htarget : g.grammar.rule? y with
      | none =>
        obtain ⟨m, rfl⟩ : ∃ m, n = m + 1 := ⟨n - 1, by omega⟩
        exact ends_symbol_of_undefined htarget
      | some r =>
        obtain ⟨j, rfl, hj⟩ := hheight.of_leadsTo (hy (by rw [htarget]; rfl))
        rw [Nat.succ_mul] at hn
        exact ih hj (by omega)
    cases hrule : g.grammar.rule? name with
    | none => exact ends_symbol_of_undefined hrule
    | some r =>
      cases hplan : g.config.strategies[name]? with
      | some plan =>
        rw [symbol, hrule, hplan]
        refine ends_strategy fun r' hr' p hp y hy below _ param => ?_
        exact hlower y (fun htarget => .item hplan hr' hp hy htarget) below param
      | none =>
        rw [symbol, hrule, hplan]
        refine (ends_chooseAlternative r).bind fun s choice t hchoice => ?_
        cases chooseAlternative_picks hchoice with
        | none => exact ends_pure ()
        | @some i p source hp hbound =>
          have hmem : p ∈ r.productions := List.mem_of_getElem? hp
          have hinside : EndsInside g (symbol g patience maxDepth n : String → Nat →
              Option String → Expand σ Unit) name depth p.elements := by
            intro y hy below hbelow param
            by_cases hself : y = name
            · -- At the bound the alternative would not refer to its own symbol.
              subst hself
              have hlt : depth < maxDepth := lt_of_symbol_mem hbuilt hrule hp hbound hy
              rw [depthInside?_self, next?_of_lt g (by omega)] at hbelow
              obtain rfl := Option.some.inj hbelow
              exact ih hheight (by omega)
            · exact hlower y (fun htarget => .alternative hplan hrule hmem hy hself htarget) below
                param
          dsimp only
          split
          · exact ends_pure ()
          · split
            · exact ends_asLayerType (ends_elements hinside)
            · exact ends_elements hinside

/-! ## More descent -/

section

variable {expand expand' : String → Nat → Option String → Expand σ Unit} {self : String}

theorem agrees_elements (h : ∀ name depth param, Agrees (expand name depth param)
      (expand' name depth param)) (es : List Element) :
    Agrees (elements g patience expand self depth param es)
      (elements g patience expand' self depth param es) := by
  induction es with
  | nil => exact .refl _
  | cons e es ih =>
    cases e with
    | literal text => exact (Agrees.refl _).bind fun _ => ih
    | terminal name => exact (Agrees.refl _).bind fun _ => ih
    | symbol name =>
      rw [elements, elements]
      split
      · exact (Agrees.refl _).bind fun _ => (Agrees.refl _).bind fun _ =>
          (h _ _ _).bind fun _ => ih
      · exact (h _ _ _).bind fun _ => ih

theorem agrees_productions (h : ∀ name depth param, Agrees (expand name depth param)
      (expand' name depth param)) (ps : List Production) :
    Agrees (productions g patience expand self depth param ps)
      (productions g patience expand' self depth param ps) := by
  induction ps with
  | nil => exact .refl _
  | cons p ps ih => exact (agrees_elements h p.elements).bind fun _ => ih

theorem agrees_outputProductions (h : ∀ name depth param, Agrees (expand name depth param)
      (expand' name depth param)) (required optional : List String) (probability : Float)
    (ps : List Production) :
    Agrees (outputProductions g patience expand self depth param required optional probability ps)
      (outputProductions g patience expand' self depth param required optional probability
        ps) := by
  induction ps with
  | nil => exact .refl _
  | cons p ps ih =>
    refine (Agrees.refl _).bind fun isWritten => ?_
    cases isWritten with
    | true => exact (agrees_elements h p.elements).bind fun _ => ih
    | false => exact ih

theorem agrees_strategy (h : ∀ name depth param, Agrees (expand name depth param)
      (expand' name depth param)) (plan : Strategy) :
    Agrees (Generator.strategy g patience expand depth param plan)
      (Generator.strategy g patience expand' depth param plan) := by
  cases hrule : g.grammar.rule? plan.item with
  | none =>
    rw [Generator.strategy, Generator.strategy, hrule]
    exact .refl _
  | some r =>
    rw [Generator.strategy, Generator.strategy, hrule]
    cases plan with
    | allRequired item => exact agrees_productions h r.productions
    | output item required optional probability => exact agrees_outputProductions h _ _ _ _
    | subset item min max =>
      exact (Agrees.refl _).bind fun s => (Agrees.refl _).bind fun chosen =>
        (Agrees.refl _).bind fun ps => agrees_productions h ps

end

theorem agrees_symbol_succ (name : String) (depth : Nat) (param : Option String) :
    Agrees (symbol g patience maxDepth n name depth param : Expand σ Unit)
      (symbol g patience maxDepth (n + 1) name depth param) := by
  induction n generalizing name depth param with
  | zero => exact fun s hs => absurd rfl hs
  | succ n ih =>
    cases hrule : g.grammar.rule? name with
    | none =>
      rw [symbol, symbol, hrule]
      exact .refl _
    | some r =>
      cases hplan : g.config.strategies[name]? with
      | some plan =>
        rw [symbol, symbol, hrule, hplan]
        exact agrees_strategy ih plan
      | none =>
        rw [symbol, symbol, hrule, hplan]
        refine (Agrees.refl _).bind fun choice => ?_
        cases choice with
        | none => exact .refl _
        | some p =>
          dsimp only
          split
          · exact .refl _
          · split
            · exact agrees_asLayerType (agrees_elements ih p.elements)
            · exact agrees_elements ih p.elements

/-- More descent changes nothing that has come to an end. -/
theorem agrees_symbol {m : Nat} (h : n ≤ m) (name : String) (depth : Nat)
    (param : Option String) :
    Agrees (symbol g patience maxDepth n name depth param : Expand σ Unit)
      (symbol g patience maxDepth m name depth param) := by
  induction h with
  | refl => exact .refl _
  | step _ ih => exact ih.trans (agrees_symbol_succ name depth param)

/-! ## Expansions that end -/

/-- The bound on the descent that suffices at a depth. -/
def descentBound (g : Generator) (depth maxDepth : UInt64) : Nat :=
  g.grammar.rules.size * (maxDepth.toNat + 2) + (maxDepth.toNat - depth.toNat) + 2

/-- From a symbol that reaches no cycle every expansion comes to an end: there is a bound on
the descent, the same for all draws, at which it ends, and beyond which it stays the same. -/
theorem expand_ends (hbuilt : g.grammar.Built) (name : String) (hacyclic : g.Acyclic name)
    (depth maxDepth : UInt64) (patience : Nat) (source : σ) :
    ∃ result, result ≠ .ok .unfinished ∧
      ∀ descent, g.descentBound depth maxDepth ≤ descent →
        g.expand ⟨patience, descent⟩ name depth maxDepth source = result := by
  cases hrule : g.grammar.rule name with
  | error e => exact ⟨.error e, by simp, fun descent _ => by rw [expand, hrule]; rfl⟩
  | ok r =>
    have hends : Ends (symbol g patience maxDepth.toNat (g.descentBound depth maxDepth) name
        depth.toNat none : Expand σ Unit) :=
      ends_symbol hbuilt maxDepth.toNat_lt (heightLe_of_acyclic hacyclic) (Nat.le_refl _)
    refine ⟨g.expand ⟨patience, g.descentBound depth maxDepth⟩ name depth maxDepth source, ?_,
      fun descent hdescent => ?_⟩
    · rw [expand_eq_ok g _ hrule, ne_eq, Except.ok.injEq]
      exact bind_ne_unfinished (hends _) fun r _ => by simp
    · rw [expand_eq_ok g _ hrule, expand_eq_ok g _ hrule]
      dsimp only
      rw [agrees_symbol hdescent name depth.toNat none _ (hends _)]

/-- A generator where a symbol has self-recursive alternatives only, and one of them branches. -/
def branching : Generator :=
  { ofGrammar (Grammar.ofAlternatives [("pair", ["<pair>", "<pair>", "<end>"]),
      ("pair", ["\"next\"", "<pair>"]), ("end", ["\"end\""])]) with
    config := { Config.standard with strategies := ∅ } }

theorem leadsTo_branching {x y : String} (h : LeadsTo branching x y) : x = "pair" ∧ y = "end" := by
  have hall : ∀ rule ∈ branching.grammar.rules.toList, ∀ p ∈ rule.2.productions,
      ∀ e ∈ p.elements, (match e with
        | .symbol y => y == rule.1 || (rule.1 == "pair" && y == "end")
        | _ => true) = true := by
    decide
  cases h with
  | item hplan => simp [branching] at hplan
  | alternative _ hrule hp hy hne _ =>
    have hmem := Std.ExtTreeMap.mem_toList_iff_getElem?_eq_some.2 hrule
    have hedge := hall _ hmem _ hp _ hy
    simpa [hne] using hedge

theorem expand_ends_branching : ∃ result, result ≠ .ok .unfinished ∧
    ∀ descent, branching.descentBound 0 3 ≤ descent →
      branching.expand ⟨8, descent⟩ "pair" 0 3 (WordSource.ofWords []) = result := by
  refine expand_ends (Grammar.built_ofAlternatives _) "pair" ?_ 0 3 8 _
  refine acyclic_of_rank (fun x => if x = "pair" then 1 else 0) (fun x y h => ?_) "pair"
  obtain ⟨rfl, rfl⟩ := leadsTo_branching h
  decide

end NeuralArch.Generator
