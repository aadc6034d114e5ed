import NeuralArch.Proofs.Generator.Samples
import NeuralArch.Proofs.Generator.Termination
import NeuralArch.Proofs.Generator.Whitelist
import NeuralArch.Proofs.Layout.Rows

/-!
# The rows of generated descriptions

Blocks of a description are set as rows wherever a line begins, so a description is
set as rows whatever its layers are, how many parameters they have, and how wide the
indentation is.  No value is more than a word or a list of words, as the samplers and
the grammar write them.

A table may admit no parameter for a type of layer.  Then the block is empty, and it
has its two rows all the same.

* `sets_description` — blocks with their assignments, one behind the other.
* `indented` — the standard generator for any table and any indentation.
* `generate_of_le` — more descent changes nothing that is done.
* `generate_indented` — whatever is generated is written in rows.
-/

namespace NeuralArch.Generator

open Layout Lexing Text Token Wording

/-! ## Descriptions -/

section

variable {r : RuleTable} {width level : Nat}

theorem inner_param (p : ParamName) : Inner p.word.toList :=
  inner_of_spelling? (k := .param p) rfl (by cases p <;> decide)

theorem inner_type (t : LayerType) : Inner t.word.toList :=
  inner_of_spelling? (k := .layer t) rfl (by cases t <;> decide)

theorem inner_item {text : String} (h : ItemText text) : Inner text.toList :=
  inner_of_number (k := .int) rfl h.integer

/-- An assignment is a statement in a row of its own. -/
theorem sets_assignment {p : ParamName} {value : List String} (h : Value r p value) :
    Sets width level level (Assignment.words ⟨p, value⟩) := by
  cases h with
  | number _ hvalid =>
    obtain ⟨k, hk, hfits⟩ := hvalid.number
    exact sets_word (inner_param p) (inner_of_number hk hfits)
  | activation _ a =>
    exact sets_word (inner_param p)
      (inner_of_spelling? (k := .activation a) rfl (by cases a <;> decide))
  | initializer _ i =>
    exact sets_word (inner_param p)
      (inner_of_spelling? (k := .initializer i) rfl (by cases i <;> decide))
  | padding _ m =>
    exact sets_word (inner_param p)
      (inner_of_spelling? (k := .padding m) rfl (by cases m <;> decide))
  | poolType _ t =>
    exact sets_word (inner_param p)
      (inner_of_spelling? (k := .poolType t) rfl (by cases t <;> decide))
  | dilations _ hfirst hrest =>
    exact sets_list (inner_param p) (inner_item hfirst) fun item hitem =>
      inner_item (hrest item hitem)

theorem sets_assignments {b : Block} {params : List Assignment} (h : AllSound r b params) :
    Sets width level level (params.flatMap Assignment.words) := by
  induction params with
  | nil => exact sets_nil
  | cons a params ih =>
    have hrest : AllSound r b params := fun a ha => h a (List.mem_cons_of_mem _ ha)
    rw [List.flatMap_cons]
    exact (sets_assignment (h a List.mem_cons_self).2).append (ih hrest)

/-- A block stands between its header and its brace, one level deeper. -/
theorem sets_block {head : String} {body : List String} (hhead : Inner head.toList)
    (hbody : Sets width (level + 1) (level + 1) body) :
    Sets width level level (head :: "\x7b" :: (body ++ ["\x7d"])) :=
  (sets_header hhead).append (hbody.append sets_closing)

theorem sets_layers {layers : List HiddenLayer}
    (h : ∀ l ∈ layers, AllSound r .hidden l.params) :
    Sets width level level (layers.flatMap HiddenLayer.words) := by
  induction layers with
  | nil => exact sets_nil
  | cons l layers ih =>
    rw [List.forall_mem_cons] at h
    rw [List.flatMap_cons]
    exact (sets_block (inner_type l.type) (sets_assignments h.1)).append (ih h.2)

/-- The words of a description are set as rows that open and close its blocks. -/
theorem sets_description {d : Description} (h : d.Valued r) :
    Sets width level level d.words := by
  have hinput : Inner "input".toList := inner_of_spelling? (k := .input) rfl (by decide)
  have houtput : Inner "output".toList := inner_of_spelling? (k := .output) rfl (by decide)
  have hnet : Inner "neuralnet".toList := inner_of_spelling? (k := .neuralnet) rfl (by decide)
  have hbody : Sets width (level + 1) (level + 1) (blockWords "input" d.input ++
      d.layers.flatMap HiddenLayer.words ++ blockWords "output" d.output) :=
    ((sets_block hinput (sets_assignments h.input)).append (sets_layers h.layers)).append
      (sets_block houtput (sets_assignments h.output))
  exact sets_block hnet hbody

end

/-! ## The generator -/

/-- The standard generator with a rule table and an indentation of its own. -/
def indented (r : RuleTable) (width : Nat) : Generator :=
  { standard with rules := r, config := { Config.standard with indentWidth := width } }

variable {r : RuleTable} {width : Nat}

theorem builtin_indented : Builtin (indented r width) where
  grammar := rfl
  sampling := rfl
  placeholders := rfl
  layerTypeSymbol := rfl
  plain := builtin_standard.plain

variable {σ : Type} [RandomSource σ] {limits : Limits} {maxDepth : UInt64}

theorem writesParams_indented {patience : Nat} :
    WritesParams σ (indented r width) patience maxDepth 2 (admittedConditions r) := by
  have hinput : Config.standard.strategies["input_params"]? =
      some (.allRequired "input_param") := by
    decide
  have hlayer : Config.standard.strategies["layer_params"]? =
      some (.subset "layer_param" 2 5) := by
    rfl
  have houtput : Config.standard.strategies["output_params"]? =
      some (.output "output_param" ["units", "activation"] ["dropout"] 0.5) := by
    rfl
  exact writesParams_admitted builtin_indented hinput hlayer houtput

/-! ## Generation -/

/-- More descent changes nothing that is done. -/
theorem generate_of_le {g : Generator} {more : Nat} (hmore : limits.descent ≤ more) {source : σ}
    {res : Option Expansion × σ} (h : g.generate limits maxDepth source = .done res) :
    g.generate ⟨limits.patience, more⟩ maxDepth source = .done res := by
  cases hroot : g.grammar.start with
  | none => rwa [generate, hroot] at h ⊢
  | some root =>
    cases hrule : g.grammar.rule root with
    | error e =>
      rw [generate, hroot] at h ⊢
      dsimp only at h ⊢
      rw [expand, hrule] at h ⊢
      exact h
    | ok rule =>
      rw [generate_eq g _ hroot hrule] at h ⊢
      obtain ⟨t, ht, hfinish⟩ := Outcome.bind_eq_done.1 h
      have hends : symbol g limits.patience maxDepth.toNat limits.descent root 0 none
          (g.start source) ≠ .unfinished := by simp [ht]
      rw [agrees_symbol hmore root 0 none _ hends, ht]
      exact hfinish

/-- What is generated is written in rows, if the descent goes deep enough. -/
theorem yields_rows (source : σ) (hdescent : maxDepth.toNat + 6 ≤ limits.descent) :
    ((indented r width).generate limits maxDepth source).Yields fun res =>
      ∃ e, res.1 = some e ∧ (e.text ≠ "" → Rows width 0 0 (lines e.text.toList)) := by
  refine (yields_made builtin_indented limits maxDepth source writesParams_indented
    hdescent).mono ?_
  rintro res ⟨e, d, he, hd, htext⟩
  refine ⟨e, he, fun hne => ?_⟩
  rw [htext, pageText] at hne ⊢
  rw [String.toList_ofList]
  exact Sets.rows (sets_description hd.valued) fun hnil => hne (congrArg String.ofList hnil)

/-- Whatever the source, the table, the width and the depth are, the lines of a generated text are
headers of blocks, closing braces and statements, each behind as many spaces as the blocks that are
open there ask for, and all blocks are closed in the end.  Such a text is generated unless no draw
succeeds. -/
theorem generate_indented (r : RuleTable) (width : Nat) (limits : Limits) (maxDepth : UInt64)
    (source : σ) :
    (∀ e source', (indented r width).generate limits maxDepth source = .done (some e, source') →
      Rows width 0 0 (lines e.text.toList)) ∧
    (maxDepth.toNat + 6 ≤ limits.descent →
      (indented r width).generate limits maxDepth source ≠ .undrawn →
      ∃ e source', (indented r width).generate limits maxDepth source =
        .done (some e, source')) := by
  constructor
  · -- The descent may be short, so the run is compared with one that may go deep enough.
    intro e source' h
    have hyields := @yields_rows r width σ _
      ⟨limits.patience, Nat.max limits.descent (maxDepth.toNat + 6)⟩ maxDepth source
      (Nat.le_max_right _ _)
    rw [generate_of_le (Nat.le_max_left _ _) h] at hyields
    obtain ⟨_, ⟨⟩, hrows⟩ := hyields
    obtain ⟨-, -, -, hne⟩ := generate_eq_done_some h
    exact hrows hne
  · intro hdescent hdrawn
    obtain ⟨⟨_, source'⟩, hdone, e, rfl, -⟩ := (yields_rows source hdescent).exists_done hdrawn
    exact ⟨e, source', hdone⟩

/-- A table that admits no parameter for the layer that `poolingWords` choose. -/
def bareTable : RuleTable := (RuleTable.standard.remove "global_pooling").allow "global_pooling" []

theorem generate_indented_poolingWords :
    ∃ e source', (indented bareTable 3).generate ⟨8, 6⟩ 0 (WordSource.ofWords poolingWords) =
        .done (some e, source') ∧
      Rows 3 0 0 (lines e.text.toList) := by
  obtain ⟨hrows, hsome⟩ :=
    generate_indented bareTable 3 ⟨8, 6⟩ 0 (WordSource.ofWords poolingWords)
  have hdrawn : (indented bareTable 3).generate ⟨8, 6⟩ 0 (WordSource.ofWords poolingWords) ≠
      .undrawn := by
    refine Outcome.ne_undrawn_of_isDone ?_
    rw [Builtin.eq_definitions builtin_indented]
    decide +kernel
  obtain ⟨e, source', hdone⟩ := hsome (by decide) hdrawn
  exact ⟨e, source', hdone, hrows e source' hdone⟩

end NeuralArch.Generator
