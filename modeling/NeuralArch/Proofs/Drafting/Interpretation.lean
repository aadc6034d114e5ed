import NeuralArch.Proofs.Drafting.Draft
import NeuralArch.Proofs.Meaning.FirstFault
import NeuralArch.Proofs.Syntax.Reading
import NeuralArch.Proofs.Wording.Trees

/-!
# Drafts are read as they are meant

The text of a draft, in any layout, has a tree, and the architecture of the tree
is the one that the draft stands for.  If 64 bits do not hold all integers of the
draft there is none, and the error is at the first of them.

* `reads_value`, `reads_assignment`, `reads_endBlock`, `reads_layer`,
  `reads_draft` — the trees of the parts stand for nothing else than the parts.
* `representable_iff` — which tokens stop the reduction.
* `interprets_layout` — what comes of a layout of a draft.
-/

namespace NeuralArch.Drafting

open NeuralArch.Tree
open Token Syntax Lexing Meaning
open Wording (Reads reads_singleton Legible legible_spelling)

/-! ## Values -/

/-- What becomes of a value: a tree of its shape that stands for the value alone. -/
structure ValueRead {s : ValueShape} (v : Value s) (tree : Tree) : Prop where
  shape : ValueTree s tree
  denotes : ∀ u, ValueOf tree u → v.Denotes u

theorem reads_int (t : IntegerText) :
    Reads [t.word] fun trees => ∃ tree, trees = [tree] ∧ ValueRead (.int t) tree := by
  refine (reads_singleton t.word).mono fun trees htrees => ?_
  obtain ⟨token, rfl, hvalue, hfits⟩ := htrees
  have hk : token.kind = .int := pattern_injective hfits (hvalue ▸ t.word_mem_integer)
  refine ⟨_, rfl, ⟨token, by rw [hk]; rfl, rfl⟩, fun u hu => ?_⟩
  obtain ⟨i, hi, rfl⟩ := (valueOf_int_iff hk).1 hu
  rw [hvalue] at hi
  exact .int (t.readInt64?_word_eq_some_iff.1 hi).2

theorem reads_float (t : FloatText) :
    Reads [t.word] fun trees => ∃ tree, trees = [tree] ∧ ValueRead (.float t) tree := by
  refine (reads_singleton t.word).mono fun trees htrees => ?_
  obtain ⟨token, rfl, hvalue, hfits⟩ := htrees
  have hk : token.kind = .float := pattern_injective hfits (hvalue ▸ t.word_mem_float)
  refine ⟨_, rfl, ⟨token, by rw [hk]; rfl, rfl⟩, fun u hu => ?_⟩
  obtain ⟨x, hx, rfl⟩ := (valueOf_float_iff hk).1 hu
  rw [hvalue] at hx
  exact .float hx

theorem reads_keyword {s : ValueShape} {v : Value s} {word : String}
    (h : Reads [word] fun trees => ∃ tree, trees = [tree] ∧ Wording.WordTree s word tree)
    (hdenotes : v.Denotes (.text word)) :
    Reads [word] fun trees => ∃ tree, trees = [tree] ∧ ValueRead v tree := by
  refine h.mono fun trees htrees => ?_
  obtain ⟨tree, rfl, hword⟩ := htrees
  refine ⟨tree, rfl, hword.shape, fun u hu => ?_⟩
  rw [hword.valueOf_iff.1 hu]
  exact hdenotes

theorem forall_mem_map_word (ts : List IntegerText) :
    ∀ item ∈ ts.map IntegerText.word, item.toList ∈ pattern .int := by
  intro item hitem
  obtain ⟨t, -, rfl⟩ := List.mem_map.1 hitem
  exact t.word_mem_integer

theorem reads_dilations (first : IntegerText) (rest : List IntegerText) :
    Reads (Value.dilations first rest).words fun trees =>
      ∃ tree, trees = [tree] ∧ ValueRead (.dilations first rest) tree := by
  have hread := Wording.reads_dilationTree first.word_mem_integer (forall_mem_map_word rest)
  refine hread.mono fun trees htrees => ?_
  obtain ⟨cs, rfl, hshape, hvalues⟩ := htrees
  refine ⟨_, rfl, hshape, fun u hu => ?_⟩
  obtain ⟨is, rfl, his⟩ := (hvalues u).1 hu
  rw [← List.map_cons, List.forall₂_map_left_iff] at his
  exact .dilations (his.imp fun t i hi => (t.readInt64?_word_eq_some_iff.1 hi).2)

theorem reads_value {s : ValueShape} (v : Value s) :
    Reads v.words fun trees => ∃ tree, trees = [tree] ∧ ValueRead v tree := by
  cases v with
  | int t => exact reads_int t
  | float t => exact reads_float t
  | activation f => exact reads_keyword (Wording.reads_activation f) .activation
  | initializer i => exact reads_keyword (Wording.reads_initializer i) .initializer
  | padding m => exact reads_keyword (Wording.reads_padding m) .padding
  | poolType p => exact reads_keyword (Wording.reads_poolType p) .poolType
  | dilations first rest => exact reads_dilations first rest

/-! ## Assignments -/

/-- A name and a value are those of an assignment. -/
def Assigns {b : Block} (a : Assignment b) (item : String × ParamValue) : Prop :=
  item.1 = a.name.word ∧ a.value.Denotes item.2

theorem reads_assignment {b : Block} (a : Assignment b) :
    Reads a.wording.words fun trees =>
      ∃ tree, trees = [tree] ∧ ParamTree b tree ∧ ∀ item, ParamOf tree item → Assigns a item := by
  have hvalue : Reads a.value.words fun trees =>
      ∃ tree, trees = [tree] ∧ ValueTree a.name.shape tree ∧
        ∀ u, ValueOf tree u → a.value.Denotes u := by
    refine (reads_value a.value).mono fun trees htrees => ?_
    obtain ⟨tree, rfl, hshape, hdenotes⟩ := htrees
    exact ⟨tree, rfl, hshape, hdenotes⟩
  have hread := @Wording.reads_assignmentTree b a.wording _ a.admitted hvalue
  refine hread.mono fun trees htrees => ?_
  obtain ⟨name, equals, semicolon, value, rfl, hshape, hk, -, hdenotes⟩ := htrees
  refine ⟨_, rfl, hshape, fun item hitem => ?_⟩
  obtain ⟨u, hu, rfl⟩ := (paramOf_iff hk).1 hitem
  exact ⟨rfl, hdenotes u hu⟩

/-- No two names are written alike. -/
theorem word_injective {p q : ParamName} (h : p.word = q.word) : p = q := by
  have hp : p.word.toList ∈ pattern (.param p) := (mem_pattern_of_spelling? rfl).2 rfl
  have hq : p.word.toList ∈ pattern (.param q) := (mem_pattern_of_spelling? rfl).2 (by rw [h])
  exact Kind.param.inj (pattern_injective hp hq)

/-- A map made of a list holds what the list has last for a name. -/
theorem getElem?_ofList_of_last (before after : List (String × ParamValue)) (name : String)
    (v : ParamValue) (hafter : ∀ item ∈ after, item.1 ≠ name) :
    (Std.ExtTreeMap.ofList (before ++ (name, v) :: after) : ParamMap)[name]? = some v := by
  have hcontains : (after.map Prod.fst).contains name = false := by
    rw [← Bool.not_eq_true, List.contains_iff_mem, List.mem_map]
    rintro ⟨item, hitem, hname⟩
    exact hafter item hitem hname
  rw [Std.ExtTreeMap.ofList_eq_insertMany_empty, Std.ExtTreeMap.insertMany_append,
    Std.ExtTreeMap.insertMany_cons,
    Std.ExtTreeMap.getElem?_insertMany_list_of_contains_eq_false hcontains,
    Std.ExtTreeMap.getElem?_insert_self]

theorem holds_ofList {b : Block} {params : List (Assignment b)}
    {items : List (String × ParamValue)} (h : List.Forall₂ Assigns params items) :
    Holds params (Std.ExtTreeMap.ofList items) where
  last := by
    rintro before a after rfl hafter
    obtain ⟨front, _, -, hrest, rfl⟩ := forall₂_append_left_iff.1 h
    obtain ⟨⟨name, v⟩, back, ⟨hname, hv⟩, hback, rfl⟩ := List.forall₂_cons_left_iff.1 hrest
    refine ⟨v, ?_, hv⟩
    rw [← hname]
    refine getElem?_ofList_of_last front back name v fun item hitem heq => ?_
    obtain ⟨c, hc, hitemName, -⟩ := exists_of_forall₂ hback hitem
    have hwords : c.name.word = a.name.word := hitemName.symm.trans (heq.trans hname)
    exact hafter c hc (word_injective hwords)
  only := by
    intro name hname
    rw [Std.ExtTreeMap.mem_ofList, List.contains_iff_mem, List.mem_map] at hname
    obtain ⟨item, hitem, rfl⟩ := hname
    obtain ⟨a, ha, hitemName, -⟩ := exists_of_forall₂ h hitem
    exact ⟨a, ha, hitemName.symm⟩

/-! ## Blocks -/

/-- What is known of the trees of some parts passes to what the trees stand for. -/
theorem forall₂_of_trees {α β : Type} {R : α → β → Prop} {S : Tree → β → Prop} {as : List α}
    {trees : List Tree} {bs : List β}
    (h : List.Forall₂ (fun a tree => ∀ b, S tree b → R a b) as trees)
    (hbs : List.Forall₂ S trees bs) : List.Forall₂ R as bs := by
  induction h generalizing bs with
  | nil =>
    cases hbs with
    | nil => exact .nil
  | cons hhead _ ih =>
    cases hbs with
    | cons hb hrest => exact .cons (hhead _ hb) (ih hrest)

theorem blockWords_map {α : Type} (head : String) (f : α → Wording.Assignment) (params : List α) :
    Wording.blockWords head (params.map f) =
      head :: "\x7b" :: (params.flatMap (fun a => (f a).words) ++ ["\x7d"]) := by
  rw [Wording.blockWords, List.flatMap_map]

theorem reads_endBlock {b : Block} (k : Kind) {word : String} (hk : k.spelling? = some word)
    (hhead : ∀ t : Token, t.kind = k → HeadTree b (leaf t)) (params : List (Assignment b)) :
    Reads (Wording.blockWords word (params.map Assignment.wording)) fun trees =>
      ∃ tree, trees = [tree] ∧ BlockTree b tree ∧ ∀ m, BlockOf tree m → Holds params m := by
  rw [blockWords_map]
  have hread := Wording.reads_blockTree (Wording.reads_endHead k hk hhead)
    fun a (_ : a ∈ params) => reads_assignment a
  refine hread.mono fun trees htrees => ?_
  obtain ⟨front, lbrace, rbrace, ps, rfl, hshape, -, -, hparams⟩ := htrees
  refine ⟨_, rfl, hshape, fun m hm => ?_⟩
  obtain ⟨items, hitems, rfl⟩ := blockOf_braces_iff.1 hm
  exact holds_ofList (forall₂_of_trees hparams hitems)

theorem reads_layer (l : HiddenLayer) :
    Reads l.wording.words fun trees => ∃ tree, trees = [tree] ∧ BlockTree .hidden tree ∧
      ∀ layer, LayerOf tree layer → layer.type = l.type.word ∧ Holds l.params layer.params := by
  rw [Wording.HiddenLayer.words, HiddenLayer.wording, blockWords_map]
  have hread := Wording.reads_blockTree (Wording.reads_layerHead l.type)
    fun a (_ : a ∈ l.params) => reads_assignment a
  refine hread.mono fun trees htrees => ?_
  obtain ⟨_, lbrace, rbrace, ps, rfl, hshape, -, ⟨type, rfl, hk, -⟩, hparams⟩ := htrees
  refine ⟨_, rfl, hshape, fun layer hlayer => ?_⟩
  obtain ⟨m, hm, rfl⟩ := (layerOf_iff hk).1 hlayer
  obtain ⟨items, hitems, rfl⟩ := blockOf_braces_iff.1 hm
  exact ⟨rfl, holds_ofList (forall₂_of_trees hparams hitems)⟩

/-! ## Drafts -/

/-- The words of a draft form a tree that stands for nothing else than the draft. -/
theorem reads_draft (d : Draft) :
    Reads d.words fun trees => ∃ tree, trees = [tree] ∧ DescriptionTree tree ∧
      ∀ a, ArchitectureOf tree a → Means d a := by
  have hinput := @reads_endBlock .input .input "input" rfl (fun t ht => ⟨t, ht, rfl⟩) d.input
  have houtput := @reads_endBlock .output .output "output" rfl (fun t ht => ⟨t, ht, rfl⟩) d.output
  rw [Draft.words, Wording.Description.words, Draft.wording, List.flatMap_map]
  have hread := Wording.reads_descriptionTree hinput
    (fun l (_ : l ∈ d.layers) => reads_layer l) houtput
  refine hread.mono fun trees htrees => ?_
  obtain ⟨word, lbrace, rbrace, first, last, hidden, rfl, hshape, hin, hall, hout⟩ := htrees
  refine ⟨_, rfl, hshape, fun a ha => ?_⟩
  obtain ⟨hi, hlayers, ho⟩ := architectureOf_iff.1 ha
  exact ⟨hin _ hi, forall₂_of_trees hall hlayers, hout _ ho⟩

theorem legible_value {s : ValueShape} (v : Value s) : Legible v.words := by
  cases v with
  | int t => exact List.forall_mem_singleton.2 ⟨.int, t.word_mem_integer⟩
  | float t => exact List.forall_mem_singleton.2 ⟨.float, t.word_mem_float⟩
  | activation f => exact List.forall_mem_singleton.2 (@legible_spelling (.activation f) _ rfl)
  | initializer i => exact List.forall_mem_singleton.2 (@legible_spelling (.initializer i) _ rfl)
  | padding m => exact List.forall_mem_singleton.2 (@legible_spelling (.padding m) _ rfl)
  | poolType p => exact List.forall_mem_singleton.2 (@legible_spelling (.poolType p) _ rfl)
  | dilations first rest =>
    exact Wording.legible_dilations first.word_mem_integer (forall_mem_map_word rest)

theorem legible_words (d : Draft) : Legible d.words := by
  have hvalues : ∀ {b : Block} (params : List (Assignment b)),
      ∀ a ∈ params.map Assignment.wording, Legible a.value := by
    intro b params a ha
    obtain ⟨a, -, rfl⟩ := List.mem_map.1 ha
    exact legible_value a.value
  refine Wording.legible_description (hvalues d.input) (fun l hl => ?_) (hvalues d.output)
  obtain ⟨l, -, rfl⟩ := List.mem_map.1 hl
  exact hvalues l.params

/-! ## Tokens that stop the reduction -/

/-- Exactly the oversized integers cannot be reduced. -/
theorem representable_iff {t : Token} (hfits : Fits t) : Representable t ↔ ¬ Oversized t.value := by
  constructor
  · rintro h ⟨i, hword, hrange⟩
    have hk : t.kind = .int := pattern_injective hfits (hword ▸ i.word_mem_integer)
    have hread := h hk
    rw [← hword, i.isSome_readInt64?_word_iff] at hread
    exact hrange hread
  · intro h hk
    rw [Fits, hk] at hfits
    obtain ⟨i, hword⟩ := IntegerText.exists_word_eq hfits
    rw [← hword, i.isSome_readInt64?_word_iff]
    by_contra hrange
    exact h ⟨i, hword, hrange⟩

/-- However a draft is written, with gaps between its words, its text has a tree.  The tree has
the architecture that the draft stands for, unless an integer is not one of 64 bits: then the error
is at the first such integer of the text. -/
theorem interprets_layout (d : Draft) (l : Layout d.words) :
    ∃ tree, Tree.ofText l.text = .ok tree ∧
      Interprets d l.placed (Architecture.ofTree tree) := by
  obtain ⟨ts, hts, hplaced⟩ := exists_ofText_layout l (legible_words d)
  have hwords : ts.map Token.value = d.words := by
    rw [← l.map_fst_placed, ← hplaced, List.map_map]
    rfl
  have hfits := fits_of_ofText hts
  obtain ⟨_, htokens, tree, rfl, hshape, hmeans⟩ := reads_draft d ts hfits hwords
  simp only [tokensOfList, List.append_nil] at htokens
  subst htokens
  have hsized : (∀ t ∈ tree.tokens, Representable t) ↔ ∀ w ∈ d.words, ¬ Oversized w := by
    rw [← hwords, List.forall_mem_map]
    exact forall₂_congr fun t ht => representable_iff (hfits t ht)
  refine ⟨tree, ofText_eq_ok_iff.2 ⟨hshape, hts⟩, ?_⟩
  cases hresult : Architecture.ofTree tree with
  | ok a =>
    have ha := (ofTree_eq_ok_iff hshape).1 hresult
    exact .ok (hsized.1 ((exists_architectureOf_iff hshape hfits).1 ⟨a, ha⟩)) (hmeans a ha)
  | error e =>
    obtain ⟨before, t, after, hsplit, hbefore, ht, rfl⟩ :=
      firstFault_of_ofTree hshape hfits hresult
    rw [hsplit] at hfits hplaced
    rw [List.forall_mem_append, List.forall_mem_cons] at hfits
    rw [List.map_append, List.map_cons] at hplaced
    refine .error hplaced.symm ?_ (by rwa [representable_iff hfits.2.1, not_not] at ht)
    rw [List.forall_mem_map]
    intro u hu
    exact (representable_iff (hfits.1 u hu)).1 (hbefore u hu)

end NeuralArch.Drafting
