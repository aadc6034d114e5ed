import NeuralArch.Proofs.Generator.Layers
import NeuralArch.Proofs.Generator.Runs
import NeuralArch.Proofs.Layout.Spread
import NeuralArch.Proofs.Meaning.Agreement
import NeuralArch.Proofs.Wording.Reading

/-!
# Generated descriptions compile

Whatever is drawn, the built-in generator writes a text, the text is read as the
description that was put together, and the description compiles.  Layout adds
nothing but blanks to the words, so the text has exactly their tokens.

* `WellFormed` — what holds of every generated architecture.
* `yields_made` — a generated text is that of a page with the words of a description.
* `exists_generate` — a description is generated, and it compiles to an
  architecture that is well-formed.
-/

namespace NeuralArch.Generator

open Layout Wording Lexing Text

/-! ## Generated architectures -/

/-- What holds of every generated architecture: it has from one to one more than the depth many
hidden layers, the parameters of the input, those of the output that are required, and the
anchors of its layers. -/
structure WellFormed (maxDepth : Nat) (a : Architecture) : Prop where
  hidden_pos : 1 ≤ a.hidden.length
  hidden_le : a.hidden.length ≤ maxDepth + 1
  features : "features" ∈ a.input
  sequenceLength : "sequence_length" ∈ a.input
  units : "units" ∈ a.output
  activation : "activation" ∈ a.output
  anchored : ∀ layer ∈ a.hidden, ∀ name, Config.standard.anchors[layer.type]? = some name →
    name ∈ layer.params

theorem wellFormed_of_represents {maxDepth : Nat} {d : Description} {a : Architecture}
    (hd : Complete maxDepth d) (h : Represents d a) : WellFormed maxDepth a := by
  have hlength : a.hidden.length = d.layers.length := h.hidden.length_eq.symm
  have hinput : ∀ p ∈ Grammar.inputParams, p.word ∈ a.input := by
    intro p hp
    rw [← hd.input] at hp
    obtain ⟨x, hx, rfl⟩ := List.mem_map.1 hp
    exact h.input x hx
  have houtput : ∀ p ∈ d.output.map Assignment.param, p.word ∈ a.output := by
    intro p hp
    obtain ⟨x, hx, rfl⟩ := List.mem_map.1 hp
    exact h.output x hx
  refine ⟨?_, ?_, hinput .features (by decide), hinput .sequenceLength (by decide),
    houtput .units hd.units, houtput .activation hd.activation, ?_⟩
  · rw [hlength]
    exact hd.layers_pos
  · rw [hlength]
    exact hd.layers_le
  · intro layer hlayer name hname
    obtain ⟨l, hl, hdenotes⟩ := Meaning.exists_of_forall₂ h.hidden hlayer
    rw [hdenotes.type_eq] at hname
    obtain ⟨x, hx, rfl⟩ := hd.anchored l hl name hname
    exact hdenotes.params x hx

variable {σ : Type} [RandomSource σ]

/-- The expansion of the start symbol, if it leaves any text. -/
theorem generate_eq (g : Generator) (limits : Limits) {root : String} {r : Rule}
    (hroot : g.grammar.start = some root) (hr : g.grammar.rule root = .ok r) (maxDepth : UInt64)
    (source : σ) :
    g.generate limits maxDepth source = (do
      let (_, s) ← symbol g limits.patience maxDepth.toNat limits.descent root 0 none
        (g.start source)
      let (e, source) := finish s
      return (if e.text.isEmpty then none else some e, source)) := by
  rw [generate, hroot]
  dsimp only
  rw [expand_eq_ok g limits hr]
  dsimp only
  rw [bind_assoc]
  rfl

theorem Builtin.exists_rule {g : Generator} (hg : Builtin g) :
    ∃ r, g.grammar.rule "ann" = .ok r := by
  obtain ⟨r, hr⟩ : ∃ r, g.grammar.rule? "ann" = some r :=
    ⟨_, @Builtin.rule? g hg "ann" [Grammar.block (.literal "neuralnet")
      [.symbol "input_layer", .symbol "hidden_layers", .symbol "output_layer"]] (by decide)⟩
  exact ⟨r, by rw [Grammar.rule, hr]⟩

/-- The text of a page on which words are written as literals. -/
def pageText (width : Nat) (ws : List String) : String :=
  String.ofList (tidy (Page.ofMarks width (ws.map Mark.ofLiteral)).text)

theorem exists_ofText_pageText (width : Nat) {ws : List String} (h : Legible ws) :
    ∃ ts, Token.ofText (pageText width ws) = .ok ts ∧ ts.map Token.value = ws := by
  have hwords : (ws.map Mark.ofLiteral).map Mark.text = ws := by
    rw [List.map_map]
    exact (List.map_congr_left fun w _ => Mark.text_ofLiteral w).trans (List.map_id' ws)
  obtain ⟨ts, hts, hvalues⟩ := @exists_ofText_tidy width (ws.map Mark.ofLiteral) (by rwa [hwords])
  exact ⟨ts, hts, hvalues.trans hwords⟩

/-- A generated text is that of the words that the start symbol writes, if each could be a token
and there is one at all. -/
theorem yields_words {g : Generator} (limits : Limits) {root : String} {rule : Rule}
    (hroot : g.grammar.start = some root) (hrule : g.grammar.rule root = .ok rule)
    (maxDepth : UInt64) (source : σ) {Q : List String → Prop}
    (h : Writes (symbol g limits.patience maxDepth.toNat limits.descent root 0 none : Expand σ Unit)
      none fun _ ws _ => Q ws)
    (hlegible : ∀ ws, Q ws → Legible ws ∧ ws ≠ []) :
    (g.generate limits maxDepth source).Yields fun r =>
      ∃ e ws, r.1 = some e ∧ Q ws ∧ e.text = pageText g.config.indentWidth ws := by
  rw [generate_eq g limits hroot hrule]
  refine (h (g.start source) rfl).bind fun r hr => ?_
  obtain ⟨ws, hpage, hwords⟩ := hr
  obtain ⟨hpatterns, hsome⟩ := hlegible ws hwords
  have htext : (finish r.2).1.text = pageText g.config.indentWidth ws := by
    rw [finish, hpage]
    rfl
  have hne : ¬ (finish r.2).1.text.isEmpty = true := by
    intro hempty
    obtain ⟨ts, hts, hvalues⟩ := exists_ofText_pageText g.config.indentWidth hpatterns
    rw [← htext, String.isEmpty_iff.1 hempty] at hts
    obtain ⟨ts', hts', hscan⟩ := @exists_ofText_of_scan "" (by simp) (by simp)
    obtain rfl := Except.ok.inj (hts.symm.trans hts')
    obtain rfl : ts = [] := by simpa using hscan
    exact hsome hvalues.symm
  exact ⟨(finish r.2).1, ws, if_neg hne, hwords, htext⟩

theorem words_ne_nil (d : Description) : d.words ≠ [] := List.cons_ne_nil _ _

/-- With the built-in grammar a description is generated, whatever is known of the parameters of
its blocks. -/
theorem yields_made {g : Generator} {c : Conditions} {k : Nat} (hg : Builtin g)
    (limits : Limits) (maxDepth : UInt64) (source : σ)
    (hparams : WritesParams σ g limits.patience maxDepth k c)
    (hdescent : maxDepth.toNat + k + 4 ≤ limits.descent) :
    (g.generate limits maxDepth source).Yields fun r => ∃ e d, r.1 = some e ∧
      Made c maxDepth.toNat d ∧ e.text = pageText g.config.indentWidth d.words := by
  obtain ⟨n, hn⟩ : ∃ n, limits.descent = n + k + 4 := ⟨limits.descent - (k + 4), by omega⟩
  obtain ⟨rule, hrule⟩ := hg.exists_rule
  have hroot : g.grammar.start = some "ann" := by
    rw [hg.grammar]
    exact Grammar.start_standard
  have hwrites : Writes (symbol g limits.patience maxDepth.toNat limits.descent "ann" 0 none :
      Expand σ Unit) none fun _ ws _ => ∃ d, Made c maxDepth.toNat d ∧ ws = d.words := by
    rw [hn]
    exact writes_ann hg hparams (by omega)
  refine (yields_words limits hroot hrule maxDepth source hwrites ?_).mono ?_
  · rintro _ ⟨d, hd, rfl⟩
    exact ⟨legible_of_valued hd.valued, words_ne_nil d⟩
  · rintro r ⟨e, _, he, ⟨d, hd, rfl⟩, htext⟩
    exact ⟨e, d, he, hd, htext⟩

/-- The text of a generated description is read as the words that were put together. -/
theorem yields_description {g : Generator} {c : Conditions} {k : Nat} (hg : Builtin g)
    (limits : Limits) (maxDepth : UInt64) (source : σ)
    (hparams : WritesParams σ g limits.patience maxDepth k c)
    (hdescent : maxDepth.toNat + k + 4 ≤ limits.descent) :
    (g.generate limits maxDepth source).Yields fun r => ∃ e ts d, r.1 = some e ∧
      Token.ofText e.text = .ok ts ∧ Made c maxDepth.toNat d ∧ ts.map Token.value = d.words := by
  refine (yields_made hg limits maxDepth source hparams hdescent).mono ?_
  rintro r ⟨e, d, he, hd, htext⟩
  obtain ⟨ts, hts, hvalues⟩ := exists_ofText_pageText g.config.indentWidth
    (legible_of_valued hd.valued)
  exact ⟨e, ts, d, he, htext ▸ hts, hd, hvalues⟩

/-- The text of a generated description. -/
theorem yields_generate (limits : Limits) (maxDepth : UInt64) (source : σ)
    (hdescent : maxDepth.toNat + 6 ≤ limits.descent) :
    (standard.generate limits maxDepth source).Yields fun r =>
      ∃ e, r.1 = some e ∧ RuleTable.standard.checkText e.text = .ok [] ∧
        ∃ a, RuleTable.standard.compileText e.text = .ok a ∧ WellFormed maxDepth.toNat a := by
  refine (yields_description builtin_standard limits maxDepth source writesParams_standard
    hdescent).mono ?_
  rintro r ⟨e, ts, d, he, hts, hd, hwords⟩
  obtain ⟨a, ha, hrepresents⟩ := exists_compileText hd.complete.sound hts hwords
  have hcheck := ((Meaning.exists_compileText_iff_check RuleTable.standard _).1 ⟨a, ha⟩).1
  exact ⟨e, he, hcheck, a, ha, wellFormed_of_represents hd.complete hrepresents⟩

/-- Unless no draw succeeds, a description is generated, and it compiles to a well-formed
architecture. -/
theorem exists_generate (limits : Limits) (maxDepth : UInt64) (source : σ)
    (hdescent : maxDepth.toNat + 6 ≤ limits.descent)
    (hdrawn : standard.generate limits maxDepth source ≠ .undrawn) :
    ∃ e source', standard.generate limits maxDepth source = .done (some e, source') ∧
      RuleTable.standard.checkText e.text = .ok [] ∧
      ∃ a, RuleTable.standard.compileText e.text = .ok a ∧ WellFormed maxDepth.toNat a := by
  obtain ⟨⟨_, source'⟩, hdone, e, rfl, he⟩ :=
    (yields_generate limits maxDepth source hdescent).exists_done hdrawn
  exact ⟨e, source', hdone, he⟩

/-- Words whose seventh chooses a global pooling for the only hidden layer. -/
def poolingWords : List UInt64 := [0, 0, 0, 0, 0, 0, 12771434820260538820, 0, 0, 0]

theorem exists_generate_poolingWords : ∃ e source',
    standard.generate ⟨8, 6⟩ 0 (WordSource.ofWords poolingWords) = .done (some e, source') ∧
      RuleTable.standard.checkText e.text = .ok [] ∧
      ∃ a, RuleTable.standard.compileText e.text = .ok a ∧ WellFormed 0 a := by
  refine exists_generate ⟨8, 6⟩ 0 (WordSource.ofWords poolingWords) (by decide)
    (Outcome.ne_undrawn_of_isDone ?_)
  rw [builtin_standard.eq_definitions]
  decide +kernel

end NeuralArch.Generator
