import NeuralArch.Proofs.Generator.Soundness
import NeuralArch.Proofs.Grammar.Sentences
import NeuralArch.Proofs.Wording.Outlines

/-!
# The grammar and the reader

What the built-in grammar derives, the reader accepts, however the derivation goes
and whatever its placeholders are read as.  A generator without strategies does
nothing but derive, so what it writes is accepted as well.  That is said of the
text, not of a derivation: the values are those of the samplers, and the layout is
taken apart again.  Without a strategy the parameters of a block are a list of the
grammar, one parameter and below the bound possibly more.

* `unguided` — the standard generator without strategies.
* `writesParams_unguided` — the parameters that it writes.
* `exists_tree_of_derived` — what is derived, and what is generated, has a tree.
-/

namespace NeuralArch.Generator

open Wording
open NeuralArch.Grammar (standardRules assignment oneOrMore block derives_refl derives_alternative
  reads isSymbol)

/-- The standard generator without strategies, with any rules and anchors. -/
def unguided (r : RuleTable) (anchors : Std.ExtTreeMap String String) : Generator :=
  { standard with rules := r, config := { Config.standard with strategies := ∅, anchors } }

variable {r : RuleTable} {anchors : Std.ExtTreeMap String String}

theorem strategy_unguided (name : String) :
    (unguided r anchors).config.strategies[name]? = none :=
  Std.ExtTreeMap.getElem?_empty

theorem builtin_unguided : Builtin (unguided r anchors) where
  grammar := rfl
  sampling := rfl
  placeholders := rfl
  layerTypeSymbol := rfl
  plain name _ := strategy_unguided name

/-! ## Parameters of blocks -/

variable {σ : Type} [RandomSource σ] {g : Generator} {patience n depth : Nat} {maxDepth : UInt64}
  {param L : Option String}

/-- The words of assignments of any of some parameters. -/
def SomeAssignments (ps : List ParamName) (ws : List String) : Prop :=
  ∃ qs, (∀ q ∈ qs, q ∈ ps) ∧ AssignmentWords qs ws

section

variable (hg : Builtin g) (hplain : ∀ name : String, g.config.strategies[name]? = none)
  {list item : String} {ps : List ParamName} (hne : ps ≠ [])
  (hitem : (item, ps.map assignment) ∈ standardRules) (hsymbol : item ∈ paramSymbols)

include hg hplain hne hitem hsymbol

theorem writes_someAssignment (h : maxDepth.toNat ≤ n + depth) :
    Writes (symbol g patience maxDepth.toNat (n + 3) item depth param : Expand σ Unit) L
      fun _ ws _ => ∃ p ∈ ps, AssignmentWords [p] ws := by
  have hflat : ∀ item ∈ paramSymbols, item ≠ "layer_type" ∧
      ∀ p ∈ ParamName.all, (assignment p).any (·.refersTo item) = false := by
    decide
  obtain ⟨hlayer, hnone⟩ := hflat item hsymbol
  obtain ⟨q, hq⟩ := List.exists_mem_of_ne_nil ps hne
  refine writes_symbol hg hitem (hplain item) hlayer (List.mem_map_of_mem hq) (hnone q q.mem_all)
    fun es hes _ => ?_
  obtain ⟨p, hp, rfl⟩ := List.mem_map.1 hes
  exact Writes.mono (writes_assignment hg hsymbol h p) fun _ ws _ hws => ⟨p, hp, hws.2⟩

variable (hlist : (list, oneOrMore list item) ∈ standardRules) (hlists : list ∈ listSymbols)

include hlist hlists

/-- An assignment, and below the bound possibly more of them. -/
theorem writes_someAssignments_step (h : maxDepth.toNat ≤ n + depth)
    (hrest : depth < maxDepth.toNat → ∀ L, Writes (symbol g patience maxDepth.toNat (n + 3) list
      (depth + 1) param : Expand σ Unit) L fun _ ws _ => SomeAssignments ps ws) :
    Writes (symbol g patience maxDepth.toNat (n + 4) list depth param : Expand σ Unit) L
      fun _ ws _ => SomeAssignments ps ws := by
  have hnames : ∀ list ∈ listSymbols, list ≠ "layer_type" ∧ ∀ item ∈ paramSymbols, item ≠ list := by
    decide
  obtain ⟨hlayer, hother⟩ := hnames list hlists
  refine writes_oneOrMore hg hlist (hplain list) hlayer (hother item hsymbol)
    (writes_someAssignment hg hplain hne hitem hsymbol h) hrest ?_ ?_
  · rintro ws ⟨p, hp, hws⟩
    exact ⟨[p], List.forall_mem_singleton.2 hp, hws⟩
  · rintro - us vs ⟨p, hp, hus⟩ ⟨qs, hqs, hvs⟩
    exact ⟨p :: qs, List.forall_mem_cons.2 ⟨hp, hqs⟩, hus.append hvs⟩

/-- Each step to further assignments adds to the depth and takes from the descent. -/
theorem writes_someAssignments (h : maxDepth.toNat ≤ n + depth) :
    Writes (symbol g patience maxDepth.toNat (n + 4) list depth param : Expand σ Unit) L
      fun _ ws _ => SomeAssignments ps ws := by
  induction n generalizing depth L with
  | zero =>
    exact writes_someAssignments_step hg hplain hne hitem hsymbol hlist hlists h
      fun hlt => absurd hlt (by omega)
  | succ n ih =>
    exact writes_someAssignments_step hg hplain hne hitem hsymbol hlist hlists h
      fun hlt L' => ih (by omega)

end

/-- Nothing more is asked of parameters than that the block admits them. -/
def anyConditions : Conditions where
  input _ := True
  hidden _ _ := True
  output _ := True

theorem writesParams_unguided :
    WritesParams σ (unguided r anchors) patience maxDepth 3 anyConditions where
  input h := by
    have hadmits : ∀ p ∈ Grammar.inputParams, Block.input.admits p = true := by decide
    have hitem : ("input_param", Grammar.inputParams.map assignment) ∈ standardRules := by decide
    refine (writes_someAssignments builtin_unguided strategy_unguided (by decide) hitem (by decide)
      (by decide) (by decide) h).mono fun _ ws _ hws => ?_
    obtain ⟨qs, hqs, hws⟩ := hws
    exact ⟨qs, trivial, fun q hq => hadmits q (hqs q hq), hws⟩
  hidden t h := by
    have hitem : ("layer_param", Grammar.layerParams.map assignment) ∈ standardRules := by decide
    refine (writes_someAssignments builtin_unguided strategy_unguided (by decide) hitem (by decide)
      (by decide) (by decide) h).mono fun _ ws _ hws => ?_
    obtain ⟨qs, -, hws⟩ := hws
    exact ⟨qs, trivial, hws⟩
  output h := by
    have hadmits : ∀ p ∈ Grammar.outputParams, Block.output.admits p = true := by decide
    have hitem : ("output_param", Grammar.outputParams.map assignment) ∈ standardRules := by decide
    refine (writes_someAssignments builtin_unguided strategy_unguided (by decide) hitem (by decide)
      (by decide) (by decide) h).mono fun _ ws _ hws => ?_
    obtain ⟨qs, hqs, hws⟩ := hws
    exact ⟨qs, trivial, fun q hq => hadmits q (hqs q hq), hws⟩

/-! ## Trees -/

theorem yields_unguided (limits : Limits) (maxDepth : UInt64) (source : σ)
    (hdescent : maxDepth.toNat + 7 ≤ limits.descent) :
    ((unguided r anchors).generate limits maxDepth source).Yields fun res =>
      ∃ (e : Expansion) (tree : Tree), res.1 = some e ∧ Tree.ofText e.text = .ok tree := by
  refine (yields_description builtin_unguided limits maxDepth source writesParams_unguided
    hdescent).mono ?_
  rintro res ⟨e, ts, d, he, hts, hd, hwords⟩
  obtain ⟨o, htree, -⟩ := exists_outline_ofText hd.valued hts hwords
  exact ⟨e, o.tree, he, htree⟩

/-- Whatever the built-in grammar derives, its literals are tokens, and the reader accepts every
list of tokens that it can be read as.  Unless no draw succeeds, a generator without strategies
writes a text that has a tree. -/
theorem exists_tree_of_derived :
    (∀ leaves : List Element, Grammar.Derives Grammar.standard [.symbol "ann"] leaves →
      (∀ e ∈ leaves, isSymbol e = false) →
      (∀ e ∈ leaves, ∃ k, reads e k = true) ∧
        ∀ (ts : List Token) (fin : Position),
          List.Forall₂ (fun e t => reads e (Token.kind t) = true) leaves ts →
            ∃ tree, Tree.ofTokens fin ts = .ok tree) ∧
    ∀ {σ : Type} [RandomSource σ] (r : RuleTable) (anchors : Std.ExtTreeMap String String)
      (limits : Limits) (maxDepth : UInt64) (source : σ), maxDepth.toNat + 7 ≤ limits.descent →
      (unguided r anchors).generate limits maxDepth source ≠ .undrawn →
        ∃ (e : Expansion) (source' : σ) (tree : Tree),
          (unguided r anchors).generate limits maxDepth source = .done (some e, source') ∧
            Tree.ofText e.text = .ok tree := by
  constructor
  · intro leaves hleaves hsymbols
    refine ⟨fun e he => ?_, fun ts fin hts => hleaves.exists_tree hts fin⟩
    have hstart : ∀ e ∈ [Element.symbol "ann"], Grammar.Readable e :=
      List.forall_mem_singleton.2 (.inl rfl)
    rcases Grammar.readable_of_derives hleaves hstart e he with hsymbol | hreads
    · simp [hsymbols e he] at hsymbol
    · exact hreads
  · intro σ _ r anchors limits maxDepth source hdescent hdrawn
    obtain ⟨⟨_, source'⟩, hdone, e, tree, rfl, htree⟩ :=
      (yields_unguided limits maxDepth source hdescent).exists_done hdrawn
    exact ⟨e, source', tree, hdone, htree⟩

/-- A parameter with two dilations. -/
def dilatedParam : List Element :=
  [.literal "dilations", .literal "=", .literal "[", .terminal "INT", .literal ",",
    .terminal "INT", .literal "]", .literal ";"]

/-- A network with dilations behind another parameter. -/
def dilatedLeaves : List Element :=
  block (.literal "neuralnet")
    (block (.literal "input") (assignment .features) ++
      block (.literal "tcn") (assignment .dropout ++ dilatedParam) ++
      block (.literal "output") (assignment .units))

theorem derives_dilatedParam :
    Grammar.Derives Grammar.standard [.symbol "layer_param"] dilatedParam := by
  have hlast : Grammar.Derives Grammar.standard [.symbol "dilation_items"] [.terminal "INT"] :=
    derives_alternative (by decide) (derives_refl _)
  have hitems : Grammar.Derives Grammar.standard [.symbol "dilation_items"]
      [.terminal "INT", .literal ",", .terminal "INT"] :=
    derives_alternative (u := [.terminal "INT", .literal ",", .symbol "dilation_items"]) (by decide)
      ((derives_refl [.terminal "INT", .literal ","]).append hlast)
  have hlist : Grammar.Derives Grammar.standard [.symbol "dilation_list"]
      [.literal "[", .terminal "INT", .literal ",", .terminal "INT", .literal "]"] :=
    derives_alternative (u := [.literal "[", .symbol "dilation_items", .literal "]"]) (by decide)
      ((derives_refl [.literal "["]).append (hitems.append (derives_refl [.literal "]"])))
  exact derives_alternative (u := assignment .dilations) (by decide)
    ((derives_refl [.literal "dilations", .literal "="]).append
      (hlist.append (derives_refl [.literal ";"])))

theorem derives_dilatedLeaves : Grammar.Derives Grammar.standard [.symbol "ann"] dilatedLeaves := by
  have hinput : Grammar.Derives Grammar.standard [.symbol "input_layer"]
      (block (.literal "input") (assignment .features)) :=
    derives_alternative (u := block (.literal "input") [.symbol "input_params"]) (by decide)
      (.block (derives_refl _) (derives_alternative (u := [.symbol "input_param"]) (by decide)
        (derives_alternative (by decide) (derives_refl _))))
  have houtput : Grammar.Derives Grammar.standard [.symbol "output_layer"]
      (block (.literal "output") (assignment .units)) :=
    derives_alternative (u := block (.literal "output") [.symbol "output_params"]) (by decide)
      (.block (derives_refl _) (derives_alternative (u := [.symbol "output_param"]) (by decide)
        (derives_alternative (by decide) (derives_refl _))))
  have hdropout : Grammar.Derives Grammar.standard [.symbol "layer_param"] (assignment .dropout) :=
    derives_alternative (by decide) (derives_refl _)
  have hparams : Grammar.Derives Grammar.standard [.symbol "layer_params"]
      (assignment .dropout ++ dilatedParam) :=
    derives_alternative (u := [.symbol "layer_param", .symbol "layer_params"]) (by decide)
      (hdropout.append (derives_alternative (by decide) derives_dilatedParam))
  have htype : Grammar.Derives Grammar.standard [.symbol "layer_type"] [.literal "tcn"] :=
    derives_alternative (by decide) (derives_refl _)
  have hhidden : Grammar.Derives Grammar.standard [.symbol "hidden_layers"]
      (block (.literal "tcn") (assignment .dropout ++ dilatedParam)) :=
    derives_alternative (u := [.symbol "hidden_layer"]) (by decide)
      (derives_alternative (u := block (.symbol "layer_type") [.symbol "layer_params"]) (by decide)
        (htype.block hparams))
  exact derives_alternative (u := block (.literal "neuralnet") [.symbol "input_layer",
    .symbol "hidden_layers", .symbol "output_layer"]) (by decide)
      (.block (derives_refl _) ((hinput.append hhidden).append houtput))

/-- Tokens for it, where the dropout is an integer. -/
def dilatedTokens : List Token :=
  [.neuralnet, .lbrace, .input, .lbrace, .param .features, .equal, .int, .semicolon, .rbrace,
    .layer .tcn, .lbrace, .param .dropout, .equal, .int, .semicolon, .param .dilations, .equal,
    .lsqb, .int, .comma, .int, .rsqb, .semicolon, .rbrace, .output, .lbrace, .param .units, .equal,
    .int, .semicolon, .rbrace, .rbrace].map fun k => ⟨k, k.spelling?.getD "1", ⟨1, 1⟩⟩

/-- Words that choose a second parameter for the only layer. -/
def secondParamWords : List UInt64 :=
  [0, 0, 0, 0, 0, 0, 0, 0, 12771434820260538820, 0, 0, 0, 0, 0, 0, 0, 0, 0]

theorem exists_tree_of_dilatedLeaves :
    ((∀ e ∈ dilatedLeaves, ∃ k, reads e k = true) ∧
      ∃ tree, Tree.ofTokens ⟨1, 1⟩ dilatedTokens = .ok tree) ∧
    ∃ (e : Expansion) (source' : WordSource) (tree : Tree),
      (unguided RuleTable.standard ∅).generate ⟨8, 8⟩ 1 (WordSource.ofWords secondParamWords) =
          .done (some e, source') ∧
        Tree.ofText e.text = .ok tree := by
  obtain ⟨hderived, hgenerated⟩ := exists_tree_of_derived
  obtain ⟨hreads, htree⟩ := hderived dilatedLeaves derives_dilatedLeaves (by decide)
  refine ⟨⟨hreads, htree dilatedTokens ⟨1, 1⟩ (by decide)⟩, ?_⟩
  refine hgenerated RuleTable.standard ∅ ⟨8, 8⟩ 1 (WordSource.ofWords secondParamWords) (by decide)
    (Outcome.ne_undrawn_of_isDone ?_)
  rw [Builtin.eq_definitions builtin_unguided]
  decide +kernel

end NeuralArch.Generator
