import NeuralArch.Proofs.Meaning.Existence
import NeuralArch.Proofs.Meaning.Visiting
import NeuralArch.Proofs.Syntax.Reading

/-!
# What validation reports

A walk over a tree could report too little, by stopping or by looking away,
and too much, by looking twice.  Here every tree of a text is written as an
outline, which lists its assignments block by block and in order, and the
report is fixed for each item of the outline alone: what follows from the rule
table is reported once, and nothing else is.

* `Outline` — a description by its assignments; `Outline.tree` is its tree, so
  no part of the tree is left out.
* `Broken`, `Violates` — when the text of a number breaks a range, or the range
  that its name has.
* `Reports` — the only possible report on an outline, item by item.
* `reports_of_ofText` — the report on the tree of a text is that one.
-/

namespace NeuralArch.Meaning

open NeuralArch.Tree
open Token Syntax Lexing

/-! ## Outlines -/

/-- A name with its value, and the tokens around them. -/
structure Setting where
  name : Token
  equals : Token
  value : Tree
  semicolon : Token

/-- The tree of an assignment in a block. -/
def Setting.tree (b : Block) (s : Setting) : Tree :=
  node (paramKind b) [leaf s.name, leaf s.equals, s.value, leaf s.semicolon]

/-- The number that is assigned. -/
def Setting.IsNumber (s : Setting) (t : Token) : Prop :=
  s.value = leaf t ∧ t.kind.isNumber = true

/-- An input or output block: its word, and the assignments between its braces. -/
structure EndPart (b : Block) where
  word : Token
  lbrace : Token
  settings : List Setting
  rbrace : Token
  word_isHead : HeadTree b (leaf word)

def EndPart.tree {b : Block} (p : EndPart b) : Tree :=
  node (blockKind b)
    ([leaf p.word, leaf p.lbrace] ++ p.settings.map (Setting.tree b) ++ [leaf p.rbrace])

/-- A hidden layer: its type, and the assignments between its braces. -/
structure LayerPart where
  type : Token
  lbrace : Token
  settings : List Setting
  rbrace : Token
  type_isLayer : type.kind.layer?.isSome = true

def LayerPart.tree (p : LayerPart) : Tree :=
  node .hiddenLayer ([node .layerType [leaf p.type], leaf p.lbrace]
    ++ p.settings.map (Setting.tree .hidden) ++ [leaf p.rbrace])

/-- A description by its assignments. -/
structure Outline where
  word : Token
  lbrace : Token
  input : EndPart .input
  hidden : List LayerPart
  output : EndPart .output
  rbrace : Token

def Outline.tree (o : Outline) : Tree :=
  node .ann ([leaf o.word, leaf o.lbrace, o.input.tree] ++ o.hidden.map LayerPart.tree
    ++ [o.output.tree, leaf o.rbrace])

/-- What every tree of a list has an outline of, the list has outlines of. -/
theorem exists_map_eq {α : Type} {P : Tree → Prop} {f : α → Tree}
    (h : ∀ tree, P tree → ∃ a, f a = tree) :
    ∀ trees : List Tree, (∀ tree ∈ trees, P tree) → ∃ as : List α, as.map f = trees := by
  intro trees htrees
  induction trees with
  | nil => exact ⟨[], rfl⟩
  | cons tree trees ih =>
    rw [List.forall_mem_cons] at htrees
    obtain ⟨a, rfl⟩ := h tree htrees.1
    obtain ⟨as, rfl⟩ := ih htrees.2
    exact ⟨a :: as, rfl⟩

theorem exists_setting {b : Block} (tree : Tree) (h : ParamTree b tree) :
    ∃ s : Setting, s.tree b = tree := by
  cases h with
  | @assignment name equals semicolon _ value => exact ⟨⟨name, equals, value, semicolon⟩, rfl⟩

theorem exists_layerPart (tree : Tree) (h : BlockTree .hidden tree) :
    ∃ p : LayerPart, p.tree = tree := by
  cases h with
  | @braces head lbrace rbrace params hhead _ hparams _ =>
    obtain ⟨type, htype, rfl⟩ := hhead
    obtain ⟨settings, rfl⟩ := exists_map_eq exists_setting params hparams
    exact ⟨⟨type, lbrace, settings, rbrace, htype⟩, rfl⟩

/-- The input and the output begin with a word. -/
theorem exists_leaf_of_head {b : Block} (hb : b ≠ .hidden) {head : Tree} (h : HeadTree b head) :
    ∃ t, head = leaf t := by
  cases b with
  | input => exact h.imp fun _ ht => ht.2
  | hidden => exact absurd rfl hb
  | output => exact h.imp fun _ ht => ht.2

theorem exists_endPart {b : Block} (hb : b ≠ .hidden) (tree : Tree) (h : BlockTree b tree) :
    ∃ p : EndPart b, p.tree = tree := by
  cases h with
  | @braces head lbrace rbrace params hhead _ hparams _ =>
    obtain ⟨word, rfl⟩ := exists_leaf_of_head hb hhead
    obtain ⟨settings, rfl⟩ := exists_map_eq exists_setting params hparams
    exact ⟨⟨word, lbrace, settings, rbrace, hhead⟩, rfl⟩

/-- Every tree of a description has an outline. -/
theorem exists_outline {tree : Tree} (h : DescriptionTree tree) :
    ∃ o : Outline, o.tree = tree := by
  cases h with
  | @network word lbrace rbrace input output hidden _ _ hinput hhidden houtput _ =>
    obtain ⟨i, rfl⟩ := exists_endPart (by decide) input hinput
    obtain ⟨ls, rfl⟩ := exists_map_eq exists_layerPart hidden hhidden
    obtain ⟨o, rfl⟩ := exists_endPart (by decide) output houtput
    exact ⟨⟨word, lbrace, i, ls, o, rbrace⟩, rfl⟩

/-! ## Broken ranges -/

/-- The text of a number breaks a range of integers by not being one of 64 bits or by being
below the least, and a range of floats by lying outside its bounds. -/
def Broken (text : String) : ParamRange → Prop
  | .int min =>
      Number.readInt64? text = none ∨ ∃ i, Number.readInt64? text = some i ∧ i < min
  | .float min max =>
      ∃ x, Number.readFloat? text = some x ∧ ¬ (min ≤ x ∧ x < (ParamRange.float min max).upper)

/-- The text of a number breaks the range of a name, if that has one. -/
def Violates (r : RuleTable) (name text : String) : Prop :=
  ∃ range, r.range? name = some range ∧ Broken text range

/-- Exactly the numbers that break a range have a cause to be reported, and it concerns
their value. -/
theorem violation?_spec (r : RuleTable) (name : String) {t : Token} (hfits : Fits t)
    (hnumber : t.kind.isNumber = true) :
    (Violates r name t.value ∧
        ∃ cause, r.violation? name t.value = some cause ∧ cause.kind = .value) ∨
      (¬ Violates r name t.value ∧ r.violation? name t.value = none) := by
  rw [RuleTable.violation?, Violates]
  cases hrange : r.range? name with
  | none => right; simp
  | some range =>
    simp only [Option.some.injEq, exists_eq_left']
    cases range with
    | int min =>
      rw [Broken]
      cases hread : Number.readInt64? t.value with
      | none => left; simp [Diagnostic.Cause.kind]
      | some i =>
        by_cases hmin : min ≤ i
        · right
          have hnot : ¬ i < min := Int64.not_lt.2 hmin
          simp [hmin, hnot]
        · left
          have hlt : i < min := Int64.not_le.1 hmin
          simp [hmin, hlt, Diagnostic.Cause.kind]
    | float min max =>
      rw [Broken]
      -- A number is written so that it can be read as a float.
      have hsome : (Number.readFloat? t.value).isSome = true := by
        apply isSome_readFloat?
        rcases kind_of_isNumber hnumber with hk | hk
        · rw [Fits, hk] at hfits; exact .inl hfits
        · rw [Fits, hk] at hfits; exact .inr hfits
      obtain ⟨x, hread⟩ := Option.isSome_iff_exists.1 hsome
      rw [hread]
      by_cases hbounds : min ≤ x ∧ x < (ParamRange.float min max).upper
      · right
        simp [hbounds]
      · left
        simp only [if_neg hbounds, Option.some.injEq, exists_eq_left']
        exact ⟨hbounds, rfl⟩

/-! ## Reports -/

/-- One diagnostic of a kind at a place if something is wrong, none otherwise. -/
def OneIff (wrong : Prop) (kind : Diagnostic.Kind) (pos : Position) (ds : List Diagnostic) :
    Prop :=
  (wrong ∧ ∃ cause, ds = [⟨cause, pos⟩] ∧ cause.kind = kind) ∨ (¬ wrong ∧ ds = [])

/-- The reports on several items, one behind the other. -/
inductive Each {α : Type} (report : α → List Diagnostic → Prop) : List α → List Diagnostic → Prop
  | nil : Each report [] []
  | cons {a : α} {as : List α} {ds es : List Diagnostic} (hhead : report a ds)
      (htail : Each report as es) : Each report (a :: as) (ds ++ es)

/-- The report on an assignment of the input or the output. -/
def EndSettingReport (r : RuleTable) (s : Setting) : List Diagnostic → Prop :=
  OneIff (∃ t, s.IsNumber t ∧ Violates r s.name.value t.value) .value s.name.pos

/-- The report on an assignment in a layer whose type admits the given names. -/
def LayerSettingReport (r : RuleTable) (allowed : Std.ExtTreeSet String) (s : Setting)
    (ds : List Diagnostic) : Prop :=
  if s.name.value ∈ allowed then EndSettingReport r s ds
  else ∃ cause, ds = [⟨cause, s.name.pos⟩] ∧ cause.kind = .structural

/-- The report on a hidden layer. -/
inductive LayerReport (r : RuleTable) (p : LayerPart) : List Diagnostic → Prop
  | unknown {cause : Diagnostic.Cause} (htype : r.allowed? p.type.value = none)
      (hkind : cause.kind = .configuration) : LayerReport r p [⟨cause, p.type.pos⟩]
  | known {allowed : Std.ExtTreeSet String} {ds : List Diagnostic}
      (htype : r.allowed? p.type.value = some allowed)
      (hsettings : Each (LayerSettingReport r allowed) p.settings ds) : LayerReport r p ds

/-- The report on a description. -/
inductive Reports (r : RuleTable) (o : Outline) : List Diagnostic → Prop
  | parts {input hidden output : List Diagnostic}
      (hinput : Each (EndSettingReport r) o.input.settings input)
      (hhidden : Each (LayerReport r) o.hidden hidden)
      (houtput : Each (EndSettingReport r) o.output.settings output) :
      Reports r o (input ++ hidden ++ output)

/-- A walk that reports right on each item reports right on all. -/
theorem each_flatMap {α : Type} {report : α → List Diagnostic → Prop}
    {walk : α → List Diagnostic} {as : List α} (h : ∀ a ∈ as, report a (walk a)) :
    Each report as (as.flatMap walk) := by
  induction as with
  | nil => exact .nil
  | cons a as ih =>
    rw [List.forall_mem_cons] at h
    rw [List.flatMap_cons]
    exact .cons h.1 (ih h.2)

/-! ## The walk reports so -/

variable {r : RuleTable}

theorem numberToken?_eq_some_iff {s : Setting} {t : Token} :
    numberToken? s.value = some t ↔ s.IsNumber t := by
  rw [numberToken?, Option.filter_eq_some_iff, Setting.IsNumber]
  cases s.value <;> simp [Tree.token?]

theorem checkRange_reports {b : Block} {s : Setting} (hfits : ∀ t ∈ (s.tree b).tokens, Fits t) :
    EndSettingReport r s (r.checkRange s.name (numberToken? s.value)) := by
  rw [EndSettingReport]
  cases hnumber : numberToken? s.value with
  | none =>
    refine .inr ⟨?_, rfl⟩
    rintro ⟨t, ht, -⟩
    simp [numberToken?_eq_some_iff.2 ht] at hnumber
  | some t =>
    have ht : s.IsNumber t := numberToken?_eq_some_iff.1 hnumber
    have hunique : ∀ u, s.IsNumber u → u = t := fun u hu =>
      leaf.inj (hu.1.symm.trans ht.1)
    have htfits : Fits t := hfits t (by simp [Setting.tree, ht.1, tokens, tokensOfList])
    rw [RuleTable.checkRange]
    rcases violation?_spec r s.name.value htfits ht.2 with ⟨hbroken, cause, hcause, hkind⟩ |
      ⟨hkept, hnone⟩
    · rw [hcause]
      exact .inl ⟨⟨t, ht, hbroken⟩, cause, rfl, hkind⟩
    · rw [hnone]
      refine .inr ⟨?_, rfl⟩
      rintro ⟨u, hu, hbroken⟩
      exact hkept (hunique u hu ▸ hbroken)

theorem visit_endPart_reports {b : Block} (hb : b ≠ .hidden) {p : EndPart b}
    (hfits : ∀ t ∈ p.tree.tokens, Fits t) :
    Each (EndSettingReport r) p.settings (r.visit none p.tree) := by
  have hparts := forall_tokens_node hfits
  rw [EndPart.tree, visit_endBlock r hb p.word_isHead, List.flatMap_map]
  apply each_flatMap
  intro s hs
  have hsfits : ∀ t ∈ (s.tree b).tokens, Fits t :=
    hparts _ (List.mem_append_left _ (List.mem_append_right _ (List.mem_map_of_mem hs)))
  rw [Setting.tree, visit_endParam r hb]
  exact checkRange_reports hsfits

theorem visit_layerPart_reports {p : LayerPart} (hfits : ∀ t ∈ p.tree.tokens, Fits t) :
    LayerReport r p (r.visit none p.tree) := by
  have hparts := forall_tokens_node hfits
  rw [LayerPart.tree, visit_hiddenBlock r p.type_isLayer]
  cases htype : r.allowed? p.type.value with
  | none => exact .unknown htype rfl
  | some allowed =>
    refine .known htype ?_
    rw [if_neg (by simp), List.flatMap_map]
    apply each_flatMap
    intro s hs
    have hsfits : ∀ t ∈ (s.tree .hidden).tokens, Fits t :=
      hparts _ (List.mem_append_left _ (List.mem_append_right _ (List.mem_map_of_mem hs)))
    rw [LayerSettingReport, Setting.tree, paramKind, visit_layerParam r htype]
    by_cases hname : s.name.value ∈ allowed
    · rw [if_pos hname, if_pos (Std.ExtTreeSet.mem_iff_contains.1 hname)]
      exact checkRange_reports hsfits
    · rw [if_neg hname, if_neg (mt Std.ExtTreeSet.mem_iff_contains.2 hname)]
      exact ⟨_, rfl, rfl⟩

/-- On the tree of a text, validation reports what an outline of it calls for and nothing
else, in the order of the text. -/
theorem reports_of_ofText (r : RuleTable) (text : String) (tree : Tree)
    (h : Tree.ofText text = .ok tree) :
    ∃ o : Outline, o.tree = tree ∧ Reports r o (r.validate tree) := by
  obtain ⟨hshape, htokens⟩ := ofText_eq_ok_iff.1 h
  obtain ⟨o, rfl⟩ := exists_outline hshape
  have hparts := forall_tokens_node (fits_of_ofText htokens)
  refine ⟨o, rfl, ?_⟩
  rw [Outline.tree, validate_network, List.flatMap_map]
  refine .parts ?_ ?_ ?_
  · exact visit_endPart_reports (by decide) (hparts _ (by simp))
  · apply each_flatMap
    intro p hp
    exact visit_layerPart_reports
      (hparts _ (List.mem_append_left _ (List.mem_append_right _ (List.mem_map_of_mem hp))))
  · exact visit_endPart_reports (by decide) (hparts _ (by simp))

/-- A description with faults of each kind, where the type of the second layer is unknown. -/
def faultyLayers : String :=
  "neuralnet \x7b input \x7b features = 0; \x7d dense \x7b units = 2.5; strides = 0; "
    ++ "dropout = 1.0; \x7d esn \x7b units = 0; \x7d output \x7b units = 1; \x7d \x7d"

theorem reports_faultyLayers : ∃ tree o, Tree.ofText faultyLayers = .ok tree ∧ o.tree = tree ∧
    Reports (RuleTable.standard.remove "esn") o
      ((RuleTable.standard.remove "esn").validate tree) := by
  have hok : (Tree.ofText faultyLayers).toOption.isSome = true := by decide +kernel
  cases h : Tree.ofText faultyLayers with
  | error e => simp [h, Except.toOption] at hok
  | ok tree =>
    obtain ⟨o, ho, hreports⟩ := reports_of_ofText (RuleTable.standard.remove "esn") _ tree h
    exact ⟨tree, o, rfl, ho, hreports⟩

end NeuralArch.Meaning
