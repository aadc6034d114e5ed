import NeuralArch.Proofs.Generator.Soundness
import NeuralArch.Proofs.Meaning.Kinds
import NeuralArch.Proofs.Wording.Outlines

/-!
# A shared table

The generator chooses the parameters of a layer from a table, and validation
judges them by one.  The generator knows the type of the layer from the text it
has just written, validation from the tree that is read back.  If the table is the
same, whatever it says, validation finds no parameter out of place in a generated
description, and has nothing to say of the layers but that some types are not in
the table.

* `restricted` — the standard generator for any table, any bounds for the number of
  parameters of a layer, and any anchors.
* `writesParams_admitted` — the parameters that it writes, as other generators do.
* `exists_generate_admitted` — what validation finds in its descriptions.
-/

namespace NeuralArch.Generator

open Wording Meaning

/-- The standard generator with a rule table, bounds for the number of parameters of a layer, and
anchors of its own. -/
def restricted (r : RuleTable) (low high : Nat) (anchors : Std.ExtTreeMap String String) :
    Generator :=
  { standard with
    rules := r
    config :=
      { Config.standard with
        strategies :=
          Config.standard.strategies.insert "layer_params" (.subset "layer_param" low high)
        anchors } }

variable {r : RuleTable} {low high : Nat} {anchors : Std.ExtTreeMap String String}

/-! ## Strategies -/

theorem strategy_layerParams :
    (restricted r low high anchors).config.strategies["layer_params"]? =
      some (.subset "layer_param" low high) :=
  Std.ExtTreeMap.getElem?_insert_self

/-- All strategies are the standard ones but that for the parameters of a layer. -/
theorem strategy_of_ne {name : String} (h : "layer_params" ≠ name) :
    (restricted r low high anchors).config.strategies[name]? =
      Config.standard.strategies[name]? := by
  rw [restricted, Std.ExtTreeMap.getElem?_insert, if_neg]
  simpa [Std.LawfulEqCmp.compare_eq_iff_eq] using h

theorem builtin_restricted : Builtin (restricted r low high anchors) where
  grammar := rfl
  sampling := rfl
  placeholders := rfl
  layerTypeSymbol := rfl
  plain name hname := by
    have hne : "layer_params" ≠ name := by
      intro heq
      subst heq
      exact hname (by decide)
    rw [strategy_of_ne hne]
    exact builtin_standard.plain name hname

/-! ## What is written -/

/-- The parameters of a layer are those that a table admits for it. -/
def admittedConditions (r : RuleTable) : Conditions where
  input _ := True
  hidden := Admitted r
  output _ := True

variable {σ : Type} [RandomSource σ]

/-- With the strategies for the ends as they are, and any bounds for the number of parameters of a
layer, the parameters of a layer are those that the table of the generator admits. -/
theorem writesParams_admitted {g : Generator} {low high patience : Nat} {maxDepth : UInt64}
    (hg : Builtin g)
    (hinput : g.config.strategies["input_params"]? = some (.allRequired "input_param"))
    (hlayer : g.config.strategies["layer_params"]? = some (.subset "layer_param" low high))
    (houtput : g.config.strategies["output_params"]? =
      some (.output "output_param" ["units", "activation"] ["dropout"] 0.5)) :
    WritesParams σ g patience maxDepth 2 (admittedConditions g.rules) where
  input h := by
    refine Writes.mono (writes_inputParams hg hinput h) fun _ ws _ hws => ?_
    exact ⟨_, trivial, by decide, hws.2⟩
  hidden t h := by
    refine Writes.mono (writes_subset hg hlayer t h) fun _ ws _ hws => ?_
    obtain ⟨-, _, ps, -, -, hadmitted, hws⟩ := hws
    exact ⟨ps, hadmitted, hws⟩
  output h := by
    refine Writes.mono (writes_outputParams hg houtput h) fun _ ws _ hws => ?_
    obtain ⟨-, ps, -, -, hadmits, hws⟩ := hws
    exact ⟨ps, trivial, hadmits, hws⟩

theorem writesParams_restricted {patience : Nat} {maxDepth : UInt64} :
    WritesParams σ (restricted r low high anchors) patience maxDepth 2 (admittedConditions r) := by
  refine writesParams_admitted builtin_restricted ?_ strategy_layerParams ?_
  · rw [strategy_of_ne (by decide)]
    rfl
  · rw [strategy_of_ne (by decide)]
    rfl

/-- An outline of a description has the parameters of the description, so where a table admits
the ones it admits the others. -/
theorem admitted_of_outlines {maxDepth : Nat} {d : Description} {o : Outline}
    (hd : Made (admittedConditions r) maxDepth d) (ho : Outlines d o) : o.Admitted r := by
  intro p hp allowed hallowed s hs
  obtain ⟨l, hl, hlayer⟩ := exists_of_forall₂ ho.hidden hp
  obtain ⟨a, ha, hname⟩ := exists_of_forall₂ hlayer.settings hs
  rw [hlayer.type_eq] at hallowed
  have hadmitted := (hd.layers l hl).hidden allowed hallowed a.param (List.mem_map_of_mem ha)
  rw [hname]
  exact Std.ExtTreeSet.mem_iff_contains.2 hadmitted

/-! ## Generation and validation -/

theorem yields_restricted (limits : Limits) (maxDepth : UInt64) (source : σ)
    (hdescent : maxDepth.toNat + 6 ≤ limits.descent) :
    ((restricted r low high anchors).generate limits maxDepth source).Yields fun res =>
      ∃ (e : Expansion) (o : Outline), res.1 = some e ∧ Tree.ofText e.text = .ok o.tree ∧
        o.Admitted r := by
  refine (yields_description builtin_restricted limits maxDepth source writesParams_restricted
    hdescent).mono ?_
  rintro res ⟨e, ts, d, he, hts, hd, hwords⟩
  obtain ⟨o, htree, ho⟩ := exists_outline_ofText hd.valued hts hwords
  exact ⟨e, o, he, htree, admitted_of_outlines hd ho⟩

/-- Unless no draw succeeds, a description is generated and read back, and with the table that the
generator used validation finds no parameter out of place in it, and an unknown type once for each
layer whose type the table does not list. -/
theorem exists_generate_admitted (r : RuleTable) (low high : Nat)
    (anchors : Std.ExtTreeMap String String) (limits : Limits) (maxDepth : UInt64) (source : σ)
    (hdescent : maxDepth.toNat + 6 ≤ limits.descent)
    (hdrawn : (restricted r low high anchors).generate limits maxDepth source ≠ .undrawn) :
    ∃ (e : Expansion) (source' : σ) (o : Outline) (ds : List Diagnostic),
      (restricted r low high anchors).generate limits maxDepth source = .done (some e, source') ∧
      Tree.ofText e.text = .ok o.tree ∧ r.checkText e.text = .ok ds ∧
      (∀ d ∈ ds, d.kind ≠ .structural) ∧
      (ds.filter fun d => d.kind = .configuration).Perm
        ((o.hidden.filter fun p => (r.allowed? p.type.value).isNone).map
          fun p => ⟨.unknownLayer p.type.value, p.type.pos⟩) := by
  obtain ⟨⟨_, source'⟩, hdone, e, o, rfl, htree, hadmitted⟩ :=
    (yields_restricted limits maxDepth source hdescent).exists_done hdrawn
  have hperm : (r.check o.tree).Perm (r.validate o.tree) := List.mergeSort_perm _ _
  refine ⟨e, source', o, r.check o.tree, hdone, htree, ?_, fun d hd => ?_, ?_⟩
  · rw [RuleTable.checkText, htree]
    rfl
  · exact kind_ne_structural_of_mem_validate hadmitted (hperm.mem_iff.1 hd)
  · have hfilter := hperm.filter fun d => d.kind = .configuration
    rw [filter_configuration_validate] at hfilter
    exact hfilter

/-- Words that choose a second layer, and a global pooling for the first; the other is dense. -/
def twoLayerWords : List UInt64 :=
  [0, 0, 0, 0, 12771434820260538820, 0, 12771434820260538820, 0, 0, 0, 0, 0, 0, 0, 0, 0, 0, 0, 0, 0,
    12771434820260538820]

theorem exists_generate_twoLayerWords :
    ∃ (e : Expansion) (source' : WordSource) (o : Outline) (ds : List Diagnostic),
      (restricted (RuleTable.standard.remove "dense") 1 1 ∅).generate ⟨8, 7⟩ 1
          (WordSource.ofWords twoLayerWords) = .done (some e, source') ∧
      Tree.ofText e.text = .ok o.tree ∧
      (RuleTable.standard.remove "dense").checkText e.text = .ok ds ∧
      (∀ d ∈ ds, d.kind ≠ .structural) ∧
      (ds.filter fun d => d.kind = .configuration).Perm
        ((o.hidden.filter fun p =>
            ((RuleTable.standard.remove "dense").allowed? p.type.value).isNone).map
          fun p => ⟨.unknownLayer p.type.value, p.type.pos⟩) := by
  refine exists_generate_admitted _ 1 1 ∅ ⟨8, 7⟩ 1 (WordSource.ofWords twoLayerWords) (by decide)
    (Outcome.ne_undrawn_of_isDone ?_)
  rw [Builtin.eq_definitions builtin_restricted]
  decide +kernel

end NeuralArch.Generator
