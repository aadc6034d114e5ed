import NeuralArch.Proofs.Meaning.Reporting
import NeuralArch.Proofs.Wording.Reading

/-!
# Outlines of descriptions

A text with the words of a description has a tree, and the outline of the tree
follows the description: block by block, the assignments have the names that the
description gives them.  Nothing is asked of a description but that its parameters
suit their blocks and its values the parameters, so its layers may be of any type
and have any parameters.

* `Outlines` — an outline with the names of a description, in the same order.
* `exists_outline_ofText` — the text is read as such an outline.
-/

namespace NeuralArch.Wording

open NeuralArch.Tree
open Token Syntax Lexing Meaning

variable {r : RuleTable}

/-! ## What an outline has in common with a description -/

/-- An assignment of the same parameter. -/
def Names (a : Assignment) (s : Setting) : Prop := s.name.value = a.param.word

/-- A layer of the same type with assignments of the same parameters. -/
structure LayerOutlines (l : HiddenLayer) (p : LayerPart) : Prop where
  type_eq : p.type.value = l.type.word
  settings : List.Forall₂ Names l.params p.settings

structure Outlines (d : Description) (o : Outline) : Prop where
  input : List.Forall₂ Names d.input o.input.settings
  hidden : List.Forall₂ LayerOutlines d.layers o.hidden
  output : List.Forall₂ Names d.output o.output.settings

/-! ## Reading -/

/-- Trees that are made of related items, are made of a list of related items. -/
theorem exists_map_of_forall₂ {α β : Type} {R : α → β → Prop} {f : β → Tree} {as : List α}
    {trees : List Tree} (h : List.Forall₂ (fun a tree => ∃ b, f b = tree ∧ R a b) as trees) :
    ∃ bs, bs.map f = trees ∧ List.Forall₂ R as bs := by
  induction h with
  | nil => exact ⟨[], rfl, .nil⟩
  | cons hfirst _ ih =>
    obtain ⟨b, rfl, hb⟩ := hfirst
    obtain ⟨bs, rfl, hbs⟩ := ih
    exact ⟨b :: bs, rfl, .cons hb hbs⟩

theorem reads_setting {b : Block} {a : Assignment} (hadmits : b.admits a.param = true)
    (h : Value r a.param a.value) :
    Reads a.words fun trees =>
      ∃ tree, trees = [tree] ∧ ParamTree b tree ∧ ∃ s : Setting, s.tree b = tree ∧ Names a s := by
  have hvalue : Reads a.value fun trees =>
      ∃ tree, trees = [tree] ∧ ValueTree a.param.shape tree ∧ True := by
    refine (reads_value h).mono fun trees htrees => ?_
    obtain ⟨tree, rfl, hread⟩ := htrees
    exact ⟨tree, rfl, hread.shape, trivial⟩
  refine (reads_assignmentTree hadmits hvalue).mono fun trees htrees => ?_
  obtain ⟨name, equals, semicolon, value, rfl, hshape, -, hname, -⟩ := htrees
  exact ⟨_, rfl, hshape, ⟨name, equals, value, semicolon⟩, rfl, hname⟩

theorem reads_settings {b : Block} {params : List Assignment} (h : AllSound r b params) :
    ∀ a ∈ params, Reads a.words fun trees =>
      ∃ tree, trees = [tree] ∧ ParamTree b tree ∧ ∃ s : Setting, s.tree b = tree ∧ Names a s :=
  fun a ha => reads_setting (h a ha).1 (h a ha).2

theorem reads_endPart {b : Block} (hb : b ≠ .hidden) (k : Kind) {word : String}
    (hk : k.spelling? = some word) (hhead : ∀ t : Token, t.kind = k → HeadTree b (leaf t))
    {params : List Assignment} (h : AllSound r b params) :
    Reads (blockWords word params) fun trees =>
      ∃ tree, trees = [tree] ∧ BlockTree b tree ∧
        ∃ p : EndPart b, p.tree = tree ∧ List.Forall₂ Names params p.settings := by
  refine (reads_blockTree (reads_endHead k hk hhead) (reads_settings h)).mono fun trees htrees => ?_
  obtain ⟨front, lbrace, rbrace, ps, rfl, hshape, hfront, -, hparams⟩ := htrees
  obtain ⟨t, rfl⟩ := exists_leaf_of_head hb hfront
  obtain ⟨settings, rfl, hsettings⟩ := exists_map_of_forall₂ hparams
  exact ⟨_, rfl, hshape, ⟨t, lbrace, settings, rbrace, hfront⟩, rfl, hsettings⟩

theorem reads_layerPart {l : HiddenLayer} (h : AllSound r .hidden l.params) :
    Reads l.words fun trees =>
      ∃ tree, trees = [tree] ∧ BlockTree .hidden tree ∧
        ∃ p : LayerPart, p.tree = tree ∧ LayerOutlines l p := by
  refine (reads_blockTree (reads_layerHead l.type) (reads_settings h)).mono fun trees htrees => ?_
  obtain ⟨_, lbrace, rbrace, ps, rfl, hshape, -, ⟨type, rfl, hk, hvalue⟩, hparams⟩ := htrees
  obtain ⟨settings, rfl, hsettings⟩ := exists_map_of_forall₂ hparams
  have htype : type.kind.layer?.isSome = true := by
    rw [hk]
    rfl
  exact ⟨_, rfl, hshape, ⟨type, lbrace, settings, rbrace, htype⟩, rfl, hvalue, hsettings⟩

theorem reads_outline {d : Description} (h : d.Valued r) :
    Reads d.words fun trees => ∃ o : Outline, trees = [o.tree] ∧ DescriptionTree o.tree ∧
      Outlines d o := by
  have hinput := @reads_endPart r .input (by decide) .input "input" rfl
    (fun t ht => ⟨t, ht, rfl⟩) d.input h.input
  have hlayers : ∀ l ∈ d.layers, Reads l.words fun trees =>
      ∃ tree, trees = [tree] ∧ BlockTree .hidden tree ∧
        ∃ p : LayerPart, p.tree = tree ∧ LayerOutlines l p :=
    fun l hl => reads_layerPart (h.layers l hl)
  have houtput := @reads_endPart r .output (by decide) .output "output" rfl
    (fun t ht => ⟨t, ht, rfl⟩) d.output h.output
  refine (reads_descriptionTree hinput hlayers houtput).mono fun trees htrees => ?_
  obtain ⟨word, lbrace, rbrace, _, _, hidden, rfl, hshape, ⟨i, rfl, hin⟩, hall, ⟨o, rfl, hout⟩⟩ :=
    htrees
  obtain ⟨parts, rfl, hparts⟩ := exists_map_of_forall₂ hall
  exact ⟨⟨word, lbrace, i, parts, o, rbrace⟩, rfl, hshape, hin, hparts, hout⟩

/-- A text with the words of a description is read as an outline of it. -/
theorem exists_outline_ofText {d : Description} (h : d.Valued r) {text : String}
    {ts : List Token} (hts : Token.ofText text = .ok ts) (hwords : ts.map Token.value = d.words) :
    ∃ o : Outline, Tree.ofText text = .ok o.tree ∧ Outlines d o := by
  obtain ⟨_, htokens, o, rfl, hshape, ho⟩ := reads_outline h ts (fits_of_ofText hts) hwords
  refine ⟨o, ofText_eq_ok_iff.2 ⟨hshape, ?_⟩, ho⟩
  rw [hts, ← htokens]
  simp [tokensOfList]

end NeuralArch.Wording
