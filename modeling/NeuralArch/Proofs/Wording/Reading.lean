import NeuralArch.Proofs.Meaning.Conformance
import NeuralArch.Proofs.Meaning.Existence
import NeuralArch.Proofs.Wording.Trees

/-!
# Sound descriptions compile

The words of a sound description form a tree in which nothing is found, and it
has an architecture with the parameters of the description.

* `reads_value`, `reads_assignment`, `reads_endBlock`, `reads_layer` — the parts.
* `exists_compileText` — a sound description compiles.
-/

namespace NeuralArch.Wording

open NeuralArch.Tree
open Token Syntax Lexing Meaning

variable {r : RuleTable}

/-! ## Values -/

/-- What becomes of a value: a tree of its shape, with a meaning, that breaks no range. -/
structure ValueRead (r : RuleTable) (p : ParamName) (tree : Tree) : Prop where
  shape : ValueTree p.shape tree
  meaning : ∃ v, ValueOf tree v
  inRange : ∀ name : Token, name.value = p.word → r.checkRange name (numberToken? tree) = []

/-- A value that is no number breaks no range. -/
theorem checkRange_none (name : Token) : r.checkRange name none = [] := rfl

/-- Only numbers are checked for their range. -/
theorem numberToken?_eq_none {s : ValueShape} {tree : Tree} (h : ValueTree s tree)
    (hs : s ≠ .number) : numberToken? tree = none := by
  have hleaf : ∀ {t : Token}, t.kind.isNumber = false → numberToken? (leaf t) = none := by
    intro t ht
    simp [numberToken?, token?, ht]
  cases s with
  | number => exact absurd rfl hs
  | padding =>
    obtain ⟨t, ht, rfl⟩ := h
    exact hleaf (by cases hk : t.kind <;> simp_all [Kind.isPadding, Kind.isNumber])
  | poolType =>
    obtain ⟨t, ht, rfl⟩ := h
    exact hleaf (by cases hk : t.kind <;> simp_all [Kind.isPoolType, Kind.isNumber])
  | activation =>
    obtain ⟨t, -, rfl⟩ := h
    rfl
  | initializer =>
    obtain ⟨t, -, rfl⟩ := h
    rfl
  | dilationList =>
    obtain ⟨_, _, _, -, -, -, rfl⟩ := h
    rfl

theorem reads_number {p : ParamName} {text : String} (hshape : p.shape = .number)
    (hvalid : ValidNumber r p.word text) :
    Reads [text] fun trees => ∃ tree, trees = [tree] ∧ ValueRead r p tree := by
  refine (reads_singleton text).mono fun trees htrees => ?_
  obtain ⟨t, rfl, rfl, hfits⟩ := htrees
  obtain ⟨k, hnumber, hpattern⟩ := hvalid.number
  obtain rfl := pattern_injective hfits hpattern
  have hshapeTree : ValueTree .number (leaf t) := ⟨t, hnumber, rfl⟩
  have hreadable : Representable t := by
    intro hint
    rw [Fits, hint] at hfits
    exact hvalid.readable hfits
  have htoken : numberToken? (leaf t) = some t := by simp [numberToken?, token?, hnumber]
  refine ⟨leaf t, rfl, hshape ▸ hshapeTree, ?_, fun name hname => ?_⟩
  · exact exists_valueOf hshapeTree (by simpa [tokens] using hfits)
      (by simpa [tokens] using hreadable)
  · rw [htoken, RuleTable.checkRange, hname, hvalid.inRange]

/-- A keyword has a meaning, and no range to break. -/
theorem reads_keyword {p : ParamName} {s : ValueShape} {word : String} (hshape : p.shape = s)
    (hs : s ≠ .number)
    (h : Reads [word] fun trees => ∃ tree, trees = [tree] ∧ WordTree s word tree) :
    Reads [word] fun trees => ∃ tree, trees = [tree] ∧ ValueRead r p tree := by
  refine h.mono fun trees htrees => ?_
  obtain ⟨tree, rfl, hword⟩ := htrees
  refine ⟨tree, rfl, hshape ▸ hword.shape, ⟨_, hword.valueOf_iff.2 rfl⟩, fun name _ => ?_⟩
  rw [numberToken?_eq_none hword.shape hs, checkRange_none]

theorem reads_dilations {p : ParamName} {first : String} {rest : List String}
    (hshape : p.shape = .dilationList) (hfirst : ItemText first)
    (hrest : ∀ item ∈ rest, ItemText item) :
    Reads ("[" :: first :: (moreItems rest ++ ["]"])) fun trees =>
      ∃ tree, trees = [tree] ∧ ValueRead r p tree := by
  have hintegers : ∀ item ∈ rest, item.toList ∈ pattern .int :=
    fun item hitem => (hrest item hitem).integer
  refine (reads_dilationTree hfirst.integer hintegers).mono fun trees htrees => ?_
  obtain ⟨cs, rfl, hshapeTree, hvalues⟩ := htrees
  have hreadable : ∀ item ∈ first :: rest, ∃ i, Number.readInt64? item = some i :=
    List.forall_mem_cons.2 ⟨Option.isSome_iff_exists.1 hfirst.readable,
      fun item hitem => Option.isSome_iff_exists.1 (hrest item hitem).readable⟩
  obtain ⟨is, his⟩ := exists_forall₂ hreadable
  exact ⟨_, rfl, hshape ▸ hshapeTree, ⟨_, (hvalues _).2 ⟨is, rfl, his⟩⟩,
    fun name _ => checkRange_none name⟩

theorem reads_value {p : ParamName} {ws : List String} (h : Value r p ws) :
    Reads ws fun trees => ∃ tree, trees = [tree] ∧ ValueRead r p tree := by
  cases h with
  | number hshape hvalid => exact reads_number hshape hvalid
  | activation hshape a => exact reads_keyword hshape (by decide) (reads_activation a)
  | initializer hshape i => exact reads_keyword hshape (by decide) (reads_initializer i)
  | padding hshape m => exact reads_keyword hshape (by decide) (reads_padding m)
  | poolType hshape t => exact reads_keyword hshape (by decide) (reads_poolType t)
  | dilations hshape hfirst hrest => exact reads_dilations hshape hfirst hrest

/-! ## Assignments -/

/-- What becomes of an assignment in a block: the tree of a parameter with a meaning, in which
nothing is found. -/
structure AssignmentRead (r : RuleTable) (b : Block) (a : Assignment) (tree : Tree) : Prop where
  shape : ParamTree b tree
  meaning : ∃ v, ParamOf tree (a.param.word, v)
  silent : b ≠ .hidden → r.visit none tree = []
  admitted : b = .hidden → ∀ type allowed, r.allowed? type = some allowed →
    allowed.contains a.param.word = true → r.visit (some type) tree = []

theorem reads_assignment {b : Block} {a : Assignment} (hadmits : b.admits a.param = true)
    (h : Value r a.param a.value) :
    Reads a.words fun trees => ∃ tree, trees = [tree] ∧ AssignmentRead r b a tree := by
  have hvalue := (reads_value h).mono fun trees ⟨tree, htrees, hread⟩ =>
    (⟨tree, htrees, hread.shape, hread⟩ :
      ∃ tree, trees = [tree] ∧ ValueTree a.param.shape tree ∧ ValueRead r a.param tree)
  refine (reads_assignmentTree hadmits hvalue).mono fun trees htrees => ?_
  obtain ⟨name, equals, semicolon, value, rfl, hshape, hk, hname, hread⟩ := htrees
  obtain ⟨v, hv⟩ := hread.meaning
  refine ⟨_, rfl, hshape, ⟨v, .assignment hk hv⟩, fun hb => ?_,
    fun hb type allowed hallowed hcontains => ?_⟩
  · exact (visit_endParam r hb none name equals semicolon value).trans (hread.inRange name hname)
  · subst hb
    rw [← hname] at hcontains
    refine (visit_layerParam r hallowed name equals semicolon value).trans ?_
    rw [if_pos hcontains, hread.inRange name hname]

/-! ## Blocks -/

/-- The parameters of a block are among those of its meaning. -/
theorem mem_of_assignmentRead {b : Block} {params : List Assignment} {trees : List Tree}
    (h : List.Forall₂ (AssignmentRead r b) params trees) :
    ∃ items, List.Forall₂ ParamOf trees items ∧
      ∀ a ∈ params, a.param.word ∈ (Std.ExtTreeMap.ofList items : ParamMap) := by
  have hitems : ∃ items, List.Forall₂ ParamOf trees items ∧
      items.map Prod.fst = params.map fun a => a.param.word := by
    induction h with
    | nil => exact ⟨[], .nil, rfl⟩
    | cons hread _ ih =>
      obtain ⟨v, hv⟩ := hread.meaning
      obtain ⟨items, hitems, hnames⟩ := ih
      exact ⟨_ :: items, .cons hv hitems, by simp [hnames]⟩
  obtain ⟨items, hitems, hnames⟩ := hitems
  refine ⟨items, hitems, fun a ha => ?_⟩
  rw [Std.ExtTreeMap.mem_ofList, List.contains_iff_mem, hnames]
  exact List.mem_map_of_mem ha

/-- What becomes of the input or the output. -/
structure BlockRead (r : RuleTable) (params : List Assignment) (tree : Tree) : Prop where
  meaning : ∃ m, BlockOf tree m ∧ ∀ a ∈ params, a.param.word ∈ m
  silent : r.visit none tree = []

theorem reads_params {b : Block} {params : List Assignment} (h : AllSound r b params) :
    ∀ a ∈ params, Reads a.words fun trees =>
      ∃ tree, trees = [tree] ∧ ParamTree b tree ∧ AssignmentRead r b a tree := by
  intro a ha
  refine (reads_assignment (h a ha).1 (h a ha).2).mono fun trees htrees => ?_
  obtain ⟨tree, rfl, hread⟩ := htrees
  exact ⟨tree, rfl, hread.shape, hread⟩

theorem reads_endBlock {b : Block} (hb : b ≠ .hidden) (k : Kind) {word : String}
    (hk : k.spelling? = some word) (hhead : ∀ t : Token, t.kind = k → HeadTree b (leaf t))
    {params : List Assignment} (h : AllSound r b params) :
    Reads (blockWords word params) fun trees =>
      ∃ tree, trees = [tree] ∧ BlockTree b tree ∧ BlockRead r params tree := by
  have hheadTree := reads_endHead k hk hhead
  refine (reads_blockTree hheadTree (reads_params h)).mono fun trees htrees => ?_
  obtain ⟨front, lbrace, rbrace, ps, rfl, hshape, hfront, -, hparams⟩ := htrees
  obtain ⟨items, hitems, hmem⟩ := mem_of_assignmentRead hparams
  refine ⟨_, rfl, hshape, ⟨_, .braces hitems, hmem⟩, ?_⟩
  refine (visit_endBlock r hb hfront lbrace rbrace ps).trans ?_
  rw [List.flatMap_eq_nil_iff]
  intro p hp
  obtain ⟨a, -, ha⟩ := exists_of_forall₂ hparams hp
  exact ha.silent hb

/-- The layer that a hidden block of a description stands for. -/
structure Denotes (l : HiddenLayer) (layer : Layer) : Prop where
  type_eq : layer.type = l.type.word
  params : ∀ a ∈ l.params, a.param.word ∈ layer.params

/-- What becomes of a hidden block. -/
structure LayerRead (r : RuleTable) (l : HiddenLayer) (tree : Tree) : Prop where
  meaning : ∃ layer, LayerOf tree layer ∧ Denotes l layer
  silent : r.visit none tree = []

theorem reads_layer {l : HiddenLayer} (h : l.Sound r) :
    Reads l.words fun trees =>
      ∃ tree, trees = [tree] ∧ BlockTree .hidden tree ∧ LayerRead r l tree := by
  refine (reads_blockTree (reads_layerHead l.type) (reads_params h.params)).mono
    fun trees htrees => ?_
  obtain ⟨_, lbrace, rbrace, ps, rfl, hshape, -, ⟨type, rfl, hk, hvalue⟩, hparams⟩ := htrees
  have hsome : type.kind.layer?.isSome = true := by
    rw [hk]
    rfl
  obtain ⟨items, hitems, hmem⟩ := mem_of_assignmentRead hparams
  refine ⟨_, rfl, hshape, ⟨_, .block hk (.braces hitems), rfl, hmem⟩, ?_⟩
  obtain ⟨allowed, hallowed, hadmitted⟩ := h.admitted
  refine (visit_hiddenBlock r hsome lbrace rbrace ps).trans ?_
  rw [hvalue, hallowed, if_neg (by simp), List.flatMap_eq_nil_iff]
  intro p hp
  obtain ⟨a, ha, haread⟩ := exists_of_forall₂ hparams hp
  exact haread.admitted rfl _ allowed hallowed (hadmitted a ha)

/-! ## Descriptions -/

theorem legible_of_value {p : ParamName} {ws : List String} (h : Value r p ws) : Legible ws := by
  cases h with
  | number _ hvalid =>
    obtain ⟨k, -, hk⟩ := hvalid.number
    exact List.forall_mem_singleton.2 ⟨k, hk⟩
  | activation _ a => exact List.forall_mem_singleton.2 (@legible_spelling (.activation a) _ rfl)
  | initializer _ i => exact List.forall_mem_singleton.2 (@legible_spelling (.initializer i) _ rfl)
  | padding _ m => exact List.forall_mem_singleton.2 (@legible_spelling (.padding m) _ rfl)
  | poolType _ t => exact List.forall_mem_singleton.2 (@legible_spelling (.poolType t) _ rfl)
  | dilations _ hfirst hrest =>
    exact legible_dilations hfirst.integer fun item hitem => (hrest item hitem).integer

/-- Every word of a description is a token of its own, if the values suit their parameters. -/
theorem legible_of_valued {d : Description} (h : d.Valued r) : Legible d.words :=
  legible_description (fun a ha => legible_of_value (h.input a ha).2)
    (fun l hl a ha => legible_of_value (h.layers l hl a ha).2)
    fun a ha => legible_of_value (h.output a ha).2

/-- The architecture that a description stands for: layer by layer, with at least the
parameters that the description assigns. -/
structure Represents (d : Description) (a : Architecture) : Prop where
  input : ∀ p ∈ d.input, p.param.word ∈ a.input
  hidden : List.Forall₂ Denotes d.layers a.hidden
  output : ∀ p ∈ d.output, p.param.word ∈ a.output

theorem exists_layers {ls : List HiddenLayer} {trees : List Tree}
    (h : List.Forall₂ (LayerRead r) ls trees) :
    ∃ layers, List.Forall₂ LayerOf trees layers ∧ List.Forall₂ Denotes ls layers := by
  induction h with
  | nil => exact ⟨[], .nil, .nil⟩
  | cons hread _ ih =>
    obtain ⟨layer, hlayer, hdenotes⟩ := hread.meaning
    obtain ⟨layers, hlayers, hall⟩ := ih
    exact ⟨layer :: layers, .cons hlayer hlayers, .cons hdenotes hall⟩

theorem reads_description {d : Description} (h : d.Sound r) :
    Reads d.words fun trees => ∃ tree, trees = [tree] ∧ DescriptionTree tree ∧
      r.validate tree = [] ∧ ∃ a, ArchitectureOf tree a ∧ Represents d a := by
  have hinput := @reads_endBlock r .input (by simp) .input "input" rfl
    (fun t ht => ⟨t, ht, rfl⟩) d.input h.input
  have hlayers : ∀ l ∈ d.layers, Reads l.words fun trees =>
      ∃ tree, trees = [tree] ∧ BlockTree .hidden tree ∧ LayerRead r l tree :=
    fun l hl => reads_layer (h.layers l hl)
  have houtput := @reads_endBlock r .output (by simp) .output "output" rfl
    (fun t ht => ⟨t, ht, rfl⟩) d.output h.output
  refine (reads_descriptionTree hinput hlayers houtput).mono fun trees htrees => ?_
  obtain ⟨word, lbrace, rbrace, first, last, hidden, rfl, hshape, hin, hall, hout⟩ := htrees
  obtain ⟨i, hi, himem⟩ := hin.meaning
  obtain ⟨o, ho, homem⟩ := hout.meaning
  obtain ⟨layers, hlayers, hdenotes⟩ := exists_layers hall
  refine ⟨_, rfl, hshape, ?_, ⟨i, layers, o⟩, .network hi hlayers ho, himem, hdenotes, homem⟩
  rw [validate_network, hin.silent, hout.silent, List.append_nil, List.nil_append,
    List.flatMap_eq_nil_iff]
  intro tree htree
  obtain ⟨l, -, hl⟩ := exists_of_forall₂ hall htree
  exact hl.silent

/-- A text with the words of a sound description compiles, to what the description
represents. -/
theorem exists_compileText {d : Description} (h : d.Sound r) {text : String} {ts : List Token}
    (hts : Token.ofText text = .ok ts) (hwords : ts.map Token.value = d.words) :
    ∃ a, r.compileText text = .ok a ∧ Represents d a := by
  obtain ⟨_, htokens, tree, rfl, hshape, hvalid, a, ha, hrepresents⟩ :=
    reads_description h ts (fits_of_ofText hts) hwords
  have htree : Tree.ofText text = .ok tree := by
    refine ofText_eq_ok_iff.2 ⟨hshape, ?_⟩
    rw [hts, ← htokens]
    simp [tokensOfList]
  exact ⟨a, compileText_eq_ok_iff.2 ⟨tree, htree, hvalid, (ofTree_eq_ok_iff hshape).2 ha⟩,
    hrepresents⟩

end NeuralArch.Wording
