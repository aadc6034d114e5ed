import NeuralArch.Proofs.Generator.Standard
import NeuralArch.Proofs.Generator.Subset
import NeuralArch.Proofs.Meaning.Conformance
import NeuralArch.Proofs.Meaning.Existence

/-!
# Generated layers

The parameters of a hidden layer are chosen among those that its type admits,
and the anchor of the type is one of them.  Hidden layers follow each other as
deep as the self-recursion goes.

How the parameters of a block are chosen, by a strategy or by the grammar, is
left open as far as it can be: `Conditions` are what is known of them, and
whatever they are, layers and descriptions are put together in the same way.

* `Covered` — what the tables have to say of a type of layer, and `covered`,
  that they say it of every type.
* `writes_subset` — the parameters that a table admits for a layer.
* `writes_hiddenLayers` — at least one layer, and no more than the depth allows.
* `writes_ann` — a whole description under conditions.
* `Made.complete` — what the standard generator writes.
-/

namespace NeuralArch.Generator

open Wording
open NeuralArch.Grammar (standardRules assignment oneOrMore block)

/-! ## What is chosen for a layer -/

/-- The alternatives that assign the parameters of layers. -/
def layerProductions : List Production := Grammar.layerParams.map (assigning "layer_param")

/-- The indices of those that a type of layer admits. -/
def admittedFor (t : LayerType) : List Nat := standard.admitted (some t.word) layerProductions

/-- What the tables say of a type of layer: it is known, some of its parameters can be written,
and its anchor, if it has one, is found among these. -/
structure Covered (t : LayerType) : Prop where
  known : (RuleTable.standard.allowed? t.word).isSome = true
  some_admitted : admittedFor t ≠ []
  anchor : ∀ name, Config.standard.anchors[t.word]? = some name →
    (standard.anchor? (some t.word) layerProductions (admittedFor t)).isSome = true

theorem covered (t : LayerType) : Covered t := by
  have htable : ∀ t ∈ LayerType.all, (RuleTable.standard.allowed? t.word).isSome = true ∧
      admittedFor t ≠ [] ∧ ((Config.standard.anchors[t.word]?).isNone ||
        (standard.anchor? (some t.word) layerProductions (admittedFor t)).isSome) = true := by
    decide
  obtain ⟨hknown, hadmitted, hanchor⟩ := htable t t.mem_all
  refine ⟨hknown, hadmitted, fun name hname => ?_⟩
  simpa [hname] using hanchor

/-- Whether a table admits parameters for a type of layer, which it does for a type that it does
not list. -/
def Admitted (r : RuleTable) (t : LayerType) (ps : List ParamName) : Prop :=
  ∀ allowed, r.allowed? t.word = some allowed → ∀ p ∈ ps, allowed.contains p.word = true

/-- An admitted index is that of a parameter that the type admits. -/
theorem exists_param_of_mem_admitted {g : Generator} {t : LayerType} {i : Nat}
    (h : i ∈ g.admitted (some t.word) layerProductions) :
    ∃ p, Grammar.layerParams[i]? = some p ∧ ∀ allowed,
      g.rules.allowed? t.word = some allowed → allowed.contains p.word = true := by
  rw [admitted, List.mem_filter] at h
  obtain ⟨-, h⟩ := h
  rw [layerProductions, List.getElem?_map] at h
  cases hp : Grammar.layerParams[i]? with
  | none => simp [hp] at h
  | some p =>
    refine ⟨p, rfl, fun allowed hallowed => ?_⟩
    have hbind : (some t.word).bind g.rules.allowed? = some allowed := hallowed
    simpa [hp, hbind, admits] using h

/-- What is chosen for a layer of a type, are parameters that the type admits. -/
theorem exists_admitted {g : Generator} {t : LayerType} {is : List Nat}
    (h : ∀ i ∈ is, i ∈ g.admitted (some t.word) layerProductions) :
    ∃ ps, List.Forall₂ (fun i p => Grammar.layerParams[i]? = some p) is ps ∧
      Admitted g.rules t ps := by
  have hparam : ∀ i ∈ is, ∃ p, Grammar.layerParams[i]? = some p := by
    intro i hi
    obtain ⟨p, hp, -⟩ := exists_param_of_mem_admitted (h i hi)
    exact ⟨p, hp⟩
  obtain ⟨ps, hps⟩ := Meaning.exists_forall₂ hparam
  refine ⟨ps, hps, fun allowed hallowed p hp => ?_⟩
  obtain ⟨i, hi, hget⟩ := Meaning.exists_of_forall₂ hps hp
  obtain ⟨q, hq, hadmitted⟩ := exists_param_of_mem_admitted (h i hi)
  obtain rfl := Option.some.inj (hget.symm.trans hq)
  exact hadmitted allowed hallowed

/-- Parameters for a layer: the type admits them, and its anchor is one of them. -/
structure Suitable (t : LayerType) (ps : List ParamName) : Prop where
  admitted : ∀ allowed, RuleTable.standard.allowed? t.word = some allowed →
    ∀ p ∈ ps, allowed.contains p.word = true
  anchored : ∀ name, Config.standard.anchors[t.word]? = some name → ∃ p ∈ ps, p.word = name

/-- What is chosen for a layer of a type, is suitable for it. -/
theorem suitable_of_chosen {t : LayerType} {is : List Nat} {ps : List ParamName} {low high : Nat}
    (h : Chosen (admittedFor t) (standard.anchor? (some t.word) layerProductions (admittedFor t))
      low high is) (hlow : 0 < low)
    (hps : List.Forall₂ (fun i p => Grammar.layerParams[i]? = some p) is ps)
    (hadmitted : Admitted RuleTable.standard t ps) : Suitable t ps := by
  refine ⟨hadmitted, fun name hname => ?_⟩
  obtain ⟨a, ha⟩ := Option.isSome_iff_exists.1 ((covered t).anchor name hname)
  obtain ⟨-, layer, param, hlayer, hparam, hget⟩ := mem_of_anchor? ha
  have hne : is ≠ [] := by
    intro hnil
    have hlength := h.low_le
    rw [hnil, List.length_nil] at hlength
    omega
  obtain ⟨p, hp, hap⟩ := Meaning.exists_of_forall₂ hps.flip (h.anchored hne a ha)
  obtain rfl := Option.some.inj hlayer
  obtain rfl := Option.some.inj (hname.symm.trans hparam)
  refine ⟨p, hp, ?_⟩
  rw [layerProductions, List.getElem?_map, show Grammar.layerParams[a]? = some p from hap] at hget
  simpa using hget

variable {σ : Type} [RandomSource σ] {g : Generator} {patience n depth : Nat} {maxDepth : UInt64}
  {param L : Option String}

/-- A layer of some type gets parameters that its type admits, chosen as the bounds say. -/
theorem writes_subset (hg : Builtin g) {low high : Nat}
    (hstrategy : g.config.strategies["layer_params"]? = some (.subset "layer_param" low high))
    (t : LayerType) (h : maxDepth.toNat ≤ n + depth) :
    WritesText (symbol g patience maxDepth.toNat (n + 3) "layer_params" depth param : Expand σ Unit)
      (some t.word) fun ws => ∃ is ps,
        Chosen (g.admitted (some t.word) layerProductions)
          (g.anchor? (some t.word) layerProductions (g.admitted (some t.word) layerProductions))
          (Nat.min low (Nat.min high (g.admitted (some t.word) layerProductions).length))
          (Nat.min high (g.admitted (some t.word) layerProductions).length) is ∧
        List.Forall₂ (fun i p => Grammar.layerParams[i]? = some p) is ps ∧
        Admitted g.rules t ps ∧ AssignmentWords ps ws := by
  have hrule : ("layer_params", oneOrMore "layer_params" "layer_param") ∈ standardRules := by
    decide
  have hitem : ("layer_param", Grammar.layerParams.map assignment) ∈ standardRules := by decide
  rw [symbol_eq_strategy hg hrule hstrategy, strategy, Strategy.item, rule?_item hg hitem]
  dsimp only
  refine Writes.get fun s hs => ?_
  rw [hs, Rule.productions_ofProductions]
  refine Writes.draw (gives_chooseSubset g patience (some t.word) layerProductions low high)
    fun is his => ?_
  obtain ⟨ps, hps, hadmitted⟩ := exists_admitted his.admitted
  have hfound : List.Forall₂ (fun i q => layerProductions[i]? = some q) is
      (ps.map (assigning "layer_param")) := by
    rw [List.forall₂_map_right_iff]
    refine hps.imp fun i p hp => ?_
    rw [layerProductions, List.getElem?_map, hp]
    rfl
  refine (writes_mapM_alternative hfound).bind fun found ws L' hfound => ?_
  obtain ⟨rfl, rfl, rfl⟩ := hfound
  exact (writes_assignments hg (by decide) h ps).mono fun ws hws =>
    ⟨is, ps, his, hps, hadmitted, hws⟩

/-! ## Parameters of blocks -/

/-- What the parameters of the blocks are like. -/
structure Conditions where
  input : List ParamName → Prop
  hidden : LayerType → List ParamName → Prop
  output : List ParamName → Prop

/-- The parameters of blocks are written under conditions, if the descent goes deep enough. -/
structure WritesParams (σ : Type) [RandomSource σ] (g : Generator) (patience : Nat)
    (maxDepth : UInt64) (k : Nat) (c : Conditions) : Prop where
  input : ∀ {n depth : Nat} {param L : Option String}, maxDepth.toNat ≤ n + depth →
    Writes (symbol g patience maxDepth.toNat (n + k + 1) "input_params" depth param :
      Expand σ Unit) L fun _ ws _ => ∃ ps, c.input ps ∧ (∀ p ∈ ps, Block.input.admits p = true) ∧
        AssignmentWords ps ws
  hidden : ∀ {n depth : Nat} {param : Option String} (t : LayerType), maxDepth.toNat ≤ n + depth →
    Writes (symbol g patience maxDepth.toNat (n + k + 1) "layer_params" depth param : Expand σ Unit)
      (some t.word) fun _ ws _ => ∃ ps, c.hidden t ps ∧ AssignmentWords ps ws
  output : ∀ {n depth : Nat} {param L : Option String}, maxDepth.toNat ≤ n + depth →
    Writes (symbol g patience maxDepth.toNat (n + k + 1) "output_params" depth param :
      Expand σ Unit) L fun _ ws _ => ∃ ps, c.output ps ∧ (∀ p ∈ ps, Block.output.admits p = true) ∧
        AssignmentWords ps ws

variable {c : Conditions} {k : Nat}

/-! ## Hidden layers -/

/-- The values suit the parameters of a layer, and the parameters the conditions. -/
structure LayerMade (c : Conditions) (l : HiddenLayer) : Prop where
  sound : AllSound RuleTable.standard .hidden l.params
  hidden : c.hidden l.type (l.params.map Assignment.param)

/-- The words of a layer under conditions. -/
def LayerWords (c : Conditions) (ws : List String) : Prop :=
  ∃ l : HiddenLayer, LayerMade c l ∧ ws = l.words

theorem layerWords_of_params {t : LayerType} {ps : List ParamName} {ws : List String}
    (hps : c.hidden t ps) (hws : AssignmentWords ps ws) :
    LayerWords c (t.word :: "\x7b" :: (ws ++ ["\x7d"])) := by
  obtain ⟨as, rfl, has, rfl⟩ := hws
  exact ⟨⟨t, as⟩, ⟨fun a ha => ⟨rfl, has a ha⟩, hps⟩, rfl⟩

/-- The words of layers, at least one and at most as many as the depths from `depth` on. -/
def LayersWords (c : Conditions) (maxDepth depth : Nat) (ws : List String) : Prop :=
  ∃ ls : List HiddenLayer, ls ≠ [] ∧ ls.length + depth ≤ maxDepth + 1 ∧
    (∀ l ∈ ls, LayerMade c l) ∧ ws = ls.flatMap HiddenLayer.words

section

variable (hg : Builtin g) (hparams : WritesParams σ g patience maxDepth k c)

include hg hparams

/-- A hidden layer is written with its type first, which then decides the parameters. -/
theorem writes_hiddenLayer (h : maxDepth.toNat ≤ n + depth) :
    Writes (symbol g patience maxDepth.toNat (n + k + 2) "hidden_layer" depth param :
      Expand σ Unit) L fun _ ws _ => LayerWords c ws := by
  have hrule : ("hidden_layer", [block (.symbol "layer_type") [.symbol "layer_params"]]) ∈
      standardRules := by
    decide
  refine writes_symbol hg hrule (hg.plain _ (by decide)) (by decide) (List.mem_cons_self ..)
    (by decide) fun es hes _ => ?_
  obtain rfl := List.mem_singleton.1 hes
  refine (writes_block (writes_symbol_of_ne (by decide) (writes_layerType hg))
    (W := fun us vs => LayerWords c (us ++ "\x7b" :: (vs ++ ["\x7d"]))) ?_).mono ?_
  · intro us L' htype
    obtain ⟨t, rfl, rfl⟩ := htype
    refine (writes_symbol_of_ne (by decide) (hparams.hidden t h)).mono ?_
    intro _ ws _ hws
    obtain ⟨ps, hps, hws⟩ := hws
    exact layerWords_of_params hps hws
  · intro _ ws _ hws
    obtain ⟨us, vs, hlayer, rfl⟩ := hws
    exact hlayer

/-- A layer, and below the bound possibly more of them. -/
theorem writes_hiddenLayers_step (hdepth : depth ≤ maxDepth.toNat) (hn : maxDepth.toNat ≤ n + depth)
    (h : depth < maxDepth.toNat → ∀ L, Writes (symbol g patience maxDepth.toNat (n + k + 2)
      "hidden_layers" (depth + 1) param : Expand σ Unit) L
        fun _ ws _ => LayersWords c maxDepth.toNat (depth + 1) ws) :
    Writes (symbol g patience maxDepth.toNat (n + k + 3) "hidden_layers" depth param :
      Expand σ Unit) L fun _ ws _ => LayersWords c maxDepth.toNat depth ws := by
  have hrule : ("hidden_layers", oneOrMore "hidden_layers" "hidden_layer") ∈ standardRules := by
    decide
  refine writes_oneOrMore hg hrule (hg.plain _ (by decide)) (by decide) (by decide)
    (writes_hiddenLayer hg hparams hn) h ?_ ?_
  · rintro ws ⟨l, hl, rfl⟩
    refine ⟨[l], by simp, ?_, List.forall_mem_singleton.2 hl, by simp⟩
    rw [List.length_singleton]
    omega
  · rintro hlt us vs ⟨l, hl, rfl⟩ ⟨ls, -, hlength, hall, rfl⟩
    refine ⟨l :: ls, by simp, ?_, List.forall_mem_cons.2 ⟨hl, hall⟩, rfl⟩
    rw [List.length_cons]
    omega

/-- Each step to further layers adds to the depth and takes from the descent. -/
theorem writes_hiddenLayers (hdepth : depth ≤ maxDepth.toNat) (hn : maxDepth.toNat ≤ n + depth) :
    Writes (symbol g patience maxDepth.toNat (n + k + 3) "hidden_layers" depth param :
      Expand σ Unit) L fun _ ws _ => LayersWords c maxDepth.toNat depth ws := by
  induction n generalizing depth L with
  | zero =>
    exact writes_hiddenLayers_step hg hparams hdepth hn fun hlt => absurd hlt (by omega)
  | succ n ih =>
    refine writes_hiddenLayers_step hg hparams hdepth hn fun hlt L' => ?_
    rw [Nat.succ_add n k]
    exact ih (by omega) (by omega)

end

/-! ## Descriptions -/

/-- The words of a block of sound parameters that meet a condition. -/
def EndWords (b : Block) (head : String) (C : List ParamName → Prop) (ws : List String) : Prop :=
  ∃ as : List Assignment, C (as.map Assignment.param) ∧ AllSound RuleTable.standard b as ∧
    ws = blockWords head as

/-- The input and the output: a word, and parameters that the block admits. -/
theorem writes_endLayer (hg : Builtin g) {b : Block} {name params head : String}
    {C : List ParamName → Prop}
    (hrule : (name, [block (.literal head) [.symbol params]]) ∈ standardRules)
    (hname : name ∉ listSymbols) (htype : name ≠ "layer_type") (hne : params ≠ name)
    (h : Writes (symbol g patience maxDepth.toNat n params depth param : Expand σ Unit) L
      fun _ ws _ => ∃ ps, C ps ∧ (∀ p ∈ ps, b.admits p = true) ∧ AssignmentWords ps ws) :
    Writes (symbol g patience maxDepth.toNat (n + 1) name depth param : Expand σ Unit) L
      fun _ ws _ => EndWords b head C ws := by
  have hflat : (block (.literal head) [.symbol params]).any (·.refersTo name) = false := by
    simp [block, Element.refersTo, hne]
  refine writes_symbol hg hrule (hg.plain _ hname) htype (List.mem_cons_self ..) hflat
    fun es hes _ => ?_
  obtain rfl := List.mem_singleton.1 hes
  refine (writes_block (writes_literal head)
    (W := fun us vs => us = [head] ∧ ∃ ps, C ps ∧ (∀ p ∈ ps, b.admits p = true) ∧
      AssignmentWords ps vs) ?_).mono ?_
  · intro us L' hhead
    obtain ⟨rfl, hus⟩ := hhead
    refine (writes_symbol_of_ne hne h).mono ?_
    intro _ ws _ hparams
    exact ⟨hus, hparams⟩
  · intro _ ws _ hws
    obtain ⟨us, vs, ⟨hus, ps, hC, hadmits, as, rfl, has, rfl⟩, rfl⟩ := hws
    subst hus
    exact ⟨as, hC, fun a ha => ⟨hadmits _ (List.mem_map_of_mem ha), has a ha⟩, rfl⟩

/-- What a description under conditions consists of. -/
structure Made (c : Conditions) (maxDepth : Nat) (d : Description) : Prop where
  input : c.input (d.input.map Assignment.param)
  input_sound : AllSound RuleTable.standard .input d.input
  layers_pos : 0 < d.layers.length
  layers_le : d.layers.length ≤ maxDepth + 1
  layers : ∀ l ∈ d.layers, LayerMade c l
  output : c.output (d.output.map Assignment.param)
  output_sound : AllSound RuleTable.standard .output d.output

theorem Made.valued {d : Description} (h : Made c maxDepth.toNat d) : d.Valued RuleTable.standard :=
  ⟨h.input_sound, fun l hl => (h.layers l hl).sound, h.output_sound⟩

theorem writes_ann (hg : Builtin g) (hparams : WritesParams σ g patience maxDepth k c)
    (h : maxDepth.toNat ≤ n) :
    Writes (symbol g patience maxDepth.toNat (n + k + 4) "ann" 0 param : Expand σ Unit) L
      fun _ ws _ => ∃ d, Made c maxDepth.toNat d ∧ ws = d.words := by
  have hrule : ("ann", [block (.literal "neuralnet") [.symbol "input_layer",
      .symbol "hidden_layers", .symbol "output_layer"]]) ∈ standardRules := by
    decide
  have hinput : ∀ L, Writes (symbol g patience maxDepth.toNat (n + k + 3) "input_layer" 0 param :
      Expand σ Unit) L fun _ ws _ => EndWords .input "input" c.input ws := by
    intro L
    have hdeep := @WritesParams.input σ _ g patience maxDepth k c hparams (n + 1) 0 param L
      (by omega)
    rw [Nat.succ_add n k] at hdeep
    exact writes_endLayer hg (by decide) (by decide) (by decide) (by decide) hdeep
  have houtput : ∀ L, Writes (symbol g patience maxDepth.toNat (n + k + 3) "output_layer" 0 param :
      Expand σ Unit) L fun _ ws _ => EndWords .output "output" c.output ws := by
    intro L
    have hdeep := @WritesParams.output σ _ g patience maxDepth k c hparams (n + 1) 0 param L
      (by omega)
    rw [Nat.succ_add n k] at hdeep
    exact writes_endLayer hg (by decide) (by decide) (by decide) (by decide) hdeep
  refine writes_symbol hg hrule (hg.plain _ (by decide)) (by decide) (List.mem_cons_self ..)
    (by decide) fun es hes _ => ?_
  obtain rfl := List.mem_singleton.1 hes
  refine (writes_block (writes_literal "neuralnet") (W := fun us vs =>
    ∃ d, Made c maxDepth.toNat d ∧ us ++ "\x7b" :: (vs ++ ["\x7d"]) = d.words) ?_).mono ?_
  · intro us L₀ hhead
    obtain ⟨rfl, hus⟩ := hhead
    rw [elements_cons]
    refine Writes.bind (writes_symbol_of_ne (by decide) (hinput _)) fun _ _ L' his => ?_
    rw [elements_cons]
    refine Writes.bind (writes_symbol_of_ne (by decide)
      (writes_hiddenLayers hg hparams (Nat.zero_le _) h)) fun _ _ L'' hls => ?_
    refine Writes.mono (writes_symbol_of_ne (by decide) (houtput L'')) fun _ _ _ hos => ?_
    obtain ⟨is, hinputs, hisound, rfl⟩ := his
    obtain ⟨ls, hne, hlength, hall, rfl⟩ := hls
    obtain ⟨os, houtputs, hosound, rfl⟩ := hos
    refine ⟨⟨is, ls, os⟩, ⟨hinputs, hisound, List.length_pos_iff.2 hne, hlength, hall, houtputs,
      hosound⟩, ?_⟩
    simp [hus, Description.words]
  · intro _ ws _ hws
    obtain ⟨us, vs, ⟨d, hd, hwords⟩, rfl⟩ := hws
    exact ⟨d, hd, hwords⟩

/-! ## The standard generator -/

/-- The strategies of the standard generator: the input has all its parameters, a layer some that
suit it, and the output those that are required. -/
def standardConditions : Conditions where
  input ps := ps = Grammar.inputParams
  hidden := Suitable
  output ps := .units ∈ ps ∧ .activation ∈ ps

theorem writesParams_standard :
    WritesParams σ standard patience maxDepth 2 standardConditions where
  input h := by
    have hstrategy : Config.standard.strategies["input_params"]? =
        some (.allRequired "input_param") := by
      rfl
    refine Writes.mono (writes_inputParams builtin_standard hstrategy h) fun _ ws _ hws => ?_
    exact ⟨_, rfl, by decide, hws.2⟩
  hidden t h := by
    have hstrategy : Config.standard.strategies["layer_params"]? =
        some (.subset "layer_param" 2 5) := by
      rfl
    refine Writes.mono (writes_subset builtin_standard hstrategy t h) fun _ ws _ hws => ?_
    obtain ⟨-, is, ps, his, hps, hadmitted, hws⟩ := hws
    refine ⟨ps, suitable_of_chosen his ?_ hps hadmitted, hws⟩
    have hpos : 0 < (admittedFor t).length := List.length_pos_iff.2 (covered t).some_admitted
    have hhigh : 0 < Nat.min 5 (admittedFor t).length := Nat.lt_min.2 ⟨by omega, hpos⟩
    exact Nat.lt_min.2 ⟨by omega, hhigh⟩
  output h := by
    have hstrategy : Config.standard.strategies["output_params"]? =
        some (.output "output_param" ["units", "activation"] ["dropout"] 0.5) := by
      rfl
    refine Writes.mono (writes_outputParams builtin_standard hstrategy h) fun _ ws _ hws => ?_
    obtain ⟨-, ps, hunits, hactivation, hadmits, hws⟩ := hws
    exact ⟨ps, ⟨hunits, hactivation⟩, hadmits, hws⟩

/-- A layer whose type has an anchor has the anchor among its parameters. -/
def Anchored (l : HiddenLayer) : Prop :=
  ∀ name, Config.standard.anchors[l.type.word]? = some name → ∃ a ∈ l.params, a.param.word = name

/-- What a generated description consists of. -/
structure Complete (maxDepth : Nat) (d : Description) : Prop where
  sound : d.Sound RuleTable.standard
  input : d.input.map Assignment.param = Grammar.inputParams
  layers_pos : 0 < d.layers.length
  layers_le : d.layers.length ≤ maxDepth + 1
  anchored : ∀ l ∈ d.layers, Anchored l
  units : .units ∈ d.output.map Assignment.param
  activation : .activation ∈ d.output.map Assignment.param

theorem LayerMade.sound_standard {l : HiddenLayer} (h : LayerMade standardConditions l) :
    l.Sound RuleTable.standard := by
  obtain ⟨allowed, hallowed⟩ := Option.isSome_iff_exists.1 (covered l.type).known
  refine ⟨h.sound, allowed, hallowed, fun a ha => ?_⟩
  exact h.hidden.admitted allowed hallowed a.param (List.mem_map_of_mem ha)

theorem LayerMade.anchored {l : HiddenLayer} (h : LayerMade standardConditions l) :
    Anchored l := by
  intro name hname
  obtain ⟨p, hp, hword⟩ := h.hidden.anchored name hname
  obtain ⟨a, ha, rfl⟩ := List.mem_map.1 hp
  exact ⟨a, ha, hword⟩

theorem Made.complete {d : Description} (h : Made standardConditions maxDepth.toNat d) :
    Complete maxDepth.toNat d where
  sound := ⟨h.input_sound, fun l hl => (h.layers l hl).sound_standard, h.output_sound⟩
  input := h.input
  layers_pos := h.layers_pos
  layers_le := h.layers_le
  anchored l hl := (h.layers l hl).anchored
  units := h.output.1
  activation := h.output.2

end NeuralArch.Generator
