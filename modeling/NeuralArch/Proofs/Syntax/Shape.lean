import NeuralArch.Tree.OfTokens
import NeuralArch.Proofs.Syntax.Sentence

/-!
# The shape of description trees

A tree of a description looks the same at every node of a kind:

    ann            NEURALNET { input-block hidden-block* output-block }
    input_layer    INPUT { input_param* }          (`output_layer` likewise)
    hidden_layer   layer_type { layer_param* }
    *_param        name = value ;

with a node of its own around a layer type, an activation, an initializer and
a dilation list.  `DescriptionTree` says so, without reference to a reader.

* `spells_description` — the sentences of the language are exactly the leaves
  of these trees.  So a list of tokens has a tree as soon as its kinds are a
  sentence, and the tree keeps every token at its place.
-/

namespace NeuralArch.Syntax

open NeuralArch.Tree
open Token
open scoped Computability

/-! ## Shapes -/

/-- What follows the first item of a dilation list: commas with an integer
each, and the closing bracket. -/
inductive ItemTrees : List Tree → Prop
  | close {bracket : Token} (hbracket : bracket.kind = .rsqb) : ItemTrees [leaf bracket]
  | item {comma number : Token} {items : List Tree} (hcomma : comma.kind = .comma)
      (hnumber : number.kind = .int) (hitems : ItemTrees items) :
      ItemTrees (leaf comma :: leaf number :: items)

/-- The tree of a value, by the shape that its name demands. -/
def ValueTree : ValueShape → Tree → Prop
  | .number, tree => ∃ t : Token, t.kind.isNumber = true ∧ tree = leaf t
  | .padding, tree => ∃ t : Token, t.kind.isPadding = true ∧ tree = leaf t
  | .poolType, tree => ∃ t : Token, t.kind.isPoolType = true ∧ tree = leaf t
  | .activation, tree =>
      ∃ t : Token, t.kind.isActivation = true ∧ tree = node .activationFn [leaf t]
  | .initializer, tree =>
      ∃ t : Token, t.kind.isInitializer = true ∧ tree = node .kernelInitializer [leaf t]
  | .dilationList, tree =>
      ∃ bracket first items, bracket.kind = .lsqb ∧ first.kind = .int ∧ ItemTrees items ∧
        tree = node .dilationList (leaf bracket :: leaf first :: items)

/-- The tree of a parameter in a block. -/
inductive ParamTree (b : Block) : Tree → Prop
  | assignment {name equals semicolon : Token} {p : ParamName} {value : Tree}
      (hname : name.kind = .param p) (hadmits : b.admits p = true)
      (hequals : equals.kind = .equal) (hvalue : ValueTree p.shape value)
      (hsemicolon : semicolon.kind = .semicolon) :
      ParamTree b (node (paramKind b) [leaf name, leaf equals, value, leaf semicolon])

/-- The tree in front of the brace of a block. -/
def HeadTree : Block → Tree → Prop
  | .input, tree => ∃ t : Token, t.kind = .input ∧ tree = leaf t
  | .hidden, tree =>
      ∃ t : Token, t.kind.layer?.isSome = true ∧ tree = node .layerType [leaf t]
  | .output, tree => ∃ t : Token, t.kind = .output ∧ tree = leaf t

/-- The kind of a block's node. -/
def blockKind : Block → NodeKind
  | .input => .inputLayer
  | .hidden => .hiddenLayer
  | .output => .outputLayer

/-- The tree of a block. -/
inductive BlockTree (b : Block) : Tree → Prop
  | braces {head : Tree} {lbrace rbrace : Token} {params : List Tree}
      (hhead : HeadTree b head) (hlbrace : lbrace.kind = .lbrace)
      (hparams : ∀ p ∈ params, ParamTree b p) (hrbrace : rbrace.kind = .rbrace) :
      BlockTree b (node (blockKind b) ([head, leaf lbrace] ++ params ++ [leaf rbrace]))

/-- The tree of a description. -/
inductive DescriptionTree : Tree → Prop
  | network {word lbrace rbrace : Token} {input output : Tree} {hidden : List Tree}
      (hword : word.kind = .neuralnet) (hlbrace : lbrace.kind = .lbrace)
      (hinput : BlockTree .input input) (hhidden : ∀ h ∈ hidden, BlockTree .hidden h)
      (houtput : BlockTree .output output) (hrbrace : rbrace.kind = .rbrace) :
      DescriptionTree
        (node .ann ([leaf word, leaf lbrace, input] ++ hidden ++ [output, leaf rbrace]))

/-! ## Sentences of tokens

The language speaks of kinds.  A list of tokens is taken apart where its kinds
are, so each construction of the language has its counterpart on tokens.
-/

theorem map_mem_mark_iff {k : Kind} {ts : List Token} :
    ts.map Token.kind ∈ mark k ↔ ∃ t, ts = [t] ∧ t.kind = k := by
  rw [mem_mark_iff, List.map_eq_singleton_iff]

theorem map_mem_oneOf_iff {accept : Kind → Bool} {ts : List Token} :
    ts.map Token.kind ∈ oneOf accept ↔ ∃ t, ts = [t] ∧ accept t.kind = true := by
  rw [mem_oneOf_iff]
  constructor
  · rintro ⟨k, hk, hts⟩
    obtain ⟨t, rfl, rfl⟩ := List.map_eq_singleton_iff.1 hts
    exact ⟨t, rfl, hk⟩
  · rintro ⟨t, rfl, ht⟩
    exact ⟨t.kind, ht, rfl⟩

theorem map_mem_mul_iff {l m : Language Kind} {ts : List Token} :
    ts.map Token.kind ∈ l * m ↔
      ∃ us vs, ts = us ++ vs ∧ us.map Token.kind ∈ l ∧ vs.map Token.kind ∈ m := by
  rw [Language.mem_mul]
  constructor
  · rintro ⟨a, ha, b, hb, hab⟩
    obtain ⟨us, vs, rfl, rfl, rfl⟩ := List.map_eq_append_iff.1 hab.symm
    exact ⟨us, vs, rfl, ha, hb⟩
  · rintro ⟨us, vs, rfl, hus, hvs⟩
    exact ⟨_, hus, _, hvs, List.map_append.symm⟩

theorem map_mem_mark_mul_iff {k : Kind} {l : Language Kind} {ts : List Token} :
    ts.map Token.kind ∈ mark k * l ↔
      ∃ t us, ts = t :: us ∧ t.kind = k ∧ us.map Token.kind ∈ l := by
  rw [map_mem_mul_iff]
  constructor
  · rintro ⟨us, vs, rfl, hus, hvs⟩
    obtain ⟨t, rfl, ht⟩ := map_mem_mark_iff.1 hus
    exact ⟨t, vs, rfl, ht, hvs⟩
  · rintro ⟨t, us, rfl, ht, hus⟩
    exact ⟨[t], us, rfl, map_mem_mark_iff.2 ⟨t, rfl, ht⟩, hus⟩

/-- The tokens of a language are the leaves of some trees. -/
def Spells (l : Language Kind) (shape : Tree → Prop) : Prop :=
  ∀ ts : List Token, ts.map Token.kind ∈ l ↔ ∃ t, shape t ∧ t.tokens = ts

/-- What may be repeated is spelled by a list of trees. -/
theorem Spells.kstar {l : Language Kind} {shape : Tree → Prop} (h : Spells l shape)
    (ts : List Token) :
    ts.map Token.kind ∈ l∗ ↔ ∃ trees, (∀ t ∈ trees, shape t) ∧ tokensOfList trees = ts := by
  rw [Language.mem_kstar]
  constructor
  · rintro ⟨pieces, hflat, hpieces⟩
    induction pieces generalizing ts with
    | nil =>
      rw [List.flatten_nil, List.map_eq_nil_iff] at hflat
      exact ⟨[], by simp, by rw [hflat, tokensOfList]⟩
    | cons piece pieces ih =>
      rw [List.flatten_cons] at hflat
      obtain ⟨us, vs, rfl, rfl, hvs⟩ := List.map_eq_append_iff.1 hflat
      obtain ⟨t, ht, rfl⟩ := (h us).1 (hpieces _ (List.mem_cons_self ..))
      obtain ⟨trees, htrees, rfl⟩ :=
        ih vs hvs fun piece hp => hpieces piece (List.mem_cons_of_mem _ hp)
      exact ⟨t :: trees, List.forall_mem_cons.2 ⟨ht, htrees⟩, by rw [tokensOfList]⟩
  · rintro ⟨trees, htrees, rfl⟩
    refine ⟨trees.map fun t => t.tokens.map Token.kind, ?_, ?_⟩
    · induction trees with
      | nil => rfl
      | cons t trees ih =>
        rw [tokensOfList, List.map_append, List.map_cons, List.flatten_cons,
          ih fun u hu => htrees u (List.mem_cons_of_mem _ hu)]
    · intro piece hp
      obtain ⟨t, ht, rfl⟩ := List.mem_map.1 hp
      exact (h _).2 ⟨t, htrees t ht, rfl⟩

/-! ## Every construction has its tree -/

theorem spells_items (ts : List Token) :
    ts.map Token.kind ∈ (mark .comma * mark .int)∗ * mark .rsqb ↔
      ∃ items, ItemTrees items ∧ tokensOfList items = ts := by
  rw [map_mem_mul_iff]
  constructor
  · rintro ⟨us, vs, rfl, hus, hvs⟩
    obtain ⟨bracket, rfl, hbracket⟩ := map_mem_mark_iff.1 hvs
    obtain ⟨pieces, hflat, hpieces⟩ := Language.mem_kstar.1 hus
    induction pieces generalizing us with
    | nil =>
      rw [List.flatten_nil, List.map_eq_nil_iff] at hflat
      subst hflat
      exact ⟨[leaf bracket], .close hbracket, rfl⟩
    | cons piece pieces ih =>
      rw [List.flatten_cons] at hflat
      obtain ⟨us, ws, rfl, rfl, hws⟩ := List.map_eq_append_iff.1 hflat
      have hpiece := hpieces _ (List.mem_cons_self ..)
      obtain ⟨comma, us, rfl, hcomma, hus⟩ := map_mem_mark_mul_iff.1 hpiece
      obtain ⟨number, rfl, hnumber⟩ := map_mem_mark_iff.1 hus
      have hrest : ∀ y ∈ pieces, y ∈ mark .comma * mark .int :=
        fun y hy => hpieces y (List.mem_cons_of_mem _ hy)
      obtain ⟨items, hitems, htokens⟩ :=
        ih ws (Language.mem_kstar.2 ⟨pieces, hws, hrest⟩) hws hrest
      refine ⟨leaf comma :: leaf number :: items, .item hcomma hnumber hitems, ?_⟩
      simp [tokensOfList, tokens, htokens]
  · rintro ⟨items, hitems, rfl⟩
    induction hitems with
    | @close bracket hbracket =>
      exact ⟨[], [bracket], rfl, Language.nil_mem_kstar _,
        map_mem_mark_iff.2 ⟨bracket, rfl, hbracket⟩⟩
    | @item comma number items hcomma hnumber _ ih =>
      obtain ⟨us, vs, htokens, hus, hvs⟩ := ih
      refine ⟨comma :: number :: us, vs, ?_, ?_, hvs⟩
      · simp [tokensOfList, tokens, htokens]
      · obtain ⟨pieces, hflat, hpieces⟩ := Language.mem_kstar.1 hus
        refine Language.mem_kstar.2 ⟨[.comma, .int] :: pieces, ?_, ?_⟩
        · simp [hcomma, hnumber, hflat]
        · exact List.forall_mem_cons.2 ⟨mem_mark_mul_iff.2 ⟨[.int], rfl, rfl⟩, hpieces⟩

/-- One token, alone or with a node around it. -/
theorem spells_oneOf {accept : Kind → Bool} (wrap : Token → Tree)
    (hwrap : ∀ t, (wrap t).tokens = [t]) :
    Spells (oneOf accept) fun tree => ∃ t : Token, accept t.kind = true ∧ tree = wrap t := by
  intro ts
  rw [map_mem_oneOf_iff]
  constructor
  · rintro ⟨t, rfl, ht⟩
    exact ⟨wrap t, ⟨t, ht, rfl⟩, hwrap t⟩
  · rintro ⟨_, ⟨t, ht, rfl⟩, rfl⟩
    exact ⟨t, hwrap t, ht⟩

theorem spells_mark (k : Kind) :
    Spells (mark k) fun tree => ∃ t : Token, t.kind = k ∧ tree = leaf t := by
  intro ts
  rw [map_mem_mark_iff]
  constructor
  · rintro ⟨t, rfl, ht⟩
    exact ⟨leaf t, ⟨t, ht, rfl⟩, rfl⟩
  · rintro ⟨_, ⟨t, ht, rfl⟩, rfl⟩
    exact ⟨t, rfl, ht⟩

theorem spells_value (s : ValueShape) : Spells (value s) (ValueTree s) := by
  cases s with
  | number => exact spells_oneOf leaf fun _ => rfl
  | padding => exact spells_oneOf leaf fun _ => rfl
  | poolType => exact spells_oneOf leaf fun _ => rfl
  | activation => exact spells_oneOf (fun t => node .activationFn [leaf t]) fun _ => rfl
  | initializer => exact spells_oneOf (fun t => node .kernelInitializer [leaf t]) fun _ => rfl
  | dilationList =>
    intro ts
    rw [value, dilationList, map_mem_mark_mul_iff]
    constructor
    · rintro ⟨bracket, us, rfl, hbracket, hus⟩
      obtain ⟨first, vs, rfl, hfirst, hvs⟩ := map_mem_mark_mul_iff.1 hus
      obtain ⟨items, hitems, rfl⟩ := (spells_items _).1 hvs
      exact ⟨_, ⟨bracket, first, items, hbracket, hfirst, hitems, rfl⟩, rfl⟩
    · rintro ⟨_, ⟨bracket, first, items, hbracket, hfirst, hitems, rfl⟩, rfl⟩
      refine ⟨bracket, _, rfl, hbracket, map_mem_mark_mul_iff.2 ⟨first, _, rfl, hfirst, ?_⟩⟩
      exact (spells_items _).2 ⟨items, hitems, rfl⟩

theorem spells_param (b : Block) : Spells (param b) (ParamTree b) := by
  intro ts
  rw [mem_param_iff]
  constructor
  · rintro ⟨p, hadmits, h⟩
    obtain ⟨name, us, rfl, hname, hus⟩ := map_mem_mark_mul_iff.1 h
    obtain ⟨equals, vs, rfl, hequals, hvs⟩ := map_mem_mark_mul_iff.1 hus
    obtain ⟨ws, xs, rfl, hws, hxs⟩ := map_mem_mul_iff.1 hvs
    obtain ⟨v, hv, rfl⟩ := (spells_value p.shape _).1 hws
    obtain ⟨semicolon, rfl, hsemicolon⟩ := map_mem_mark_iff.1 hxs
    exact ⟨_, .assignment hname hadmits hequals hv hsemicolon, rfl⟩
  · rintro ⟨_, ⟨hname, hadmits, hequals, hv, hsemicolon⟩, rfl⟩
    rename_i name equals semicolon p v
    refine ⟨p, hadmits, map_mem_mark_mul_iff.2
      ⟨name, equals :: (v.tokens ++ [semicolon]), by simp [tokens, tokensOfList], hname, ?_⟩⟩
    refine map_mem_mark_mul_iff.2 ⟨_, _, rfl, hequals, ?_⟩
    exact map_mem_mul_iff.2 ⟨_, _, rfl, (spells_value _ _).2 ⟨_, hv, rfl⟩,
      map_mem_mark_iff.2 ⟨_, rfl, hsemicolon⟩⟩

theorem spells_head (b : Block) : Spells (head b) (HeadTree b) := by
  cases b with
  | input => exact spells_mark .input
  | hidden => exact spells_oneOf (fun t => node .layerType [leaf t]) fun _ => rfl
  | output => exact spells_mark .output

theorem spells_block (b : Block) : Spells (block b) (BlockTree b) := by
  intro ts
  rw [block, map_mem_mul_iff]
  constructor
  · rintro ⟨us, vs, rfl, hus, hvs⟩
    obtain ⟨head, hhead, rfl⟩ := (spells_head b us).1 hus
    obtain ⟨lbrace, ws, rfl, hlbrace, hws⟩ := map_mem_mark_mul_iff.1 hvs
    obtain ⟨xs, ys, rfl, hxs, hys⟩ := map_mem_mul_iff.1 hws
    obtain ⟨params, hparams, rfl⟩ := ((spells_param b).kstar xs).1 hxs
    obtain ⟨rbrace, rfl, hrbrace⟩ := map_mem_mark_iff.1 hys
    refine ⟨_, .braces hhead hlbrace hparams hrbrace, ?_⟩
    simp [tokens, tokensOfList, tokensOfList_append]
  · rintro ⟨_, ⟨hhead, hlbrace, hparams, hrbrace⟩, rfl⟩
    rename_i head lbrace rbrace params
    refine ⟨head.tokens, lbrace :: (tokensOfList params ++ [rbrace]), ?_,
      (spells_head b _).2 ⟨_, hhead, rfl⟩, map_mem_mark_mul_iff.2 ⟨_, _, rfl, hlbrace, ?_⟩⟩
    · simp [tokens, tokensOfList, tokensOfList_append]
    · exact map_mem_mul_iff.2 ⟨_, _, rfl, ((spells_param b).kstar _).2 ⟨_, hparams, rfl⟩,
        map_mem_mark_iff.2 ⟨_, rfl, hrbrace⟩⟩

/-- The sentences are the leaves of description trees. -/
theorem spells_description : Spells description DescriptionTree := by
  intro ts
  rw [description, map_mem_mark_mul_iff]
  constructor
  · rintro ⟨word, us, rfl, hword, hus⟩
    obtain ⟨lbrace, vs, rfl, hlbrace, hvs⟩ := map_mem_mark_mul_iff.1 hus
    obtain ⟨is, ws, rfl, his, hws⟩ := map_mem_mul_iff.1 hvs
    obtain ⟨input, hinput, rfl⟩ := (spells_block .input is).1 his
    obtain ⟨hs, xs, rfl, hhs, hxs⟩ := map_mem_mul_iff.1 hws
    obtain ⟨hidden, hhidden, rfl⟩ := ((spells_block .hidden).kstar hs).1 hhs
    obtain ⟨os, ys, rfl, hos, hys⟩ := map_mem_mul_iff.1 hxs
    obtain ⟨output, houtput, rfl⟩ := (spells_block .output os).1 hos
    obtain ⟨rbrace, rfl, hrbrace⟩ := map_mem_mark_iff.1 hys
    refine ⟨_, .network hword hlbrace hinput hhidden houtput hrbrace, ?_⟩
    simp [tokens, tokensOfList, tokensOfList_append]
  · rintro ⟨_, ⟨hword, hlbrace, hinput, hhidden, houtput, hrbrace⟩, rfl⟩
    rename_i word lbrace rbrace input output hidden
    refine ⟨word, lbrace :: (input.tokens ++ (tokensOfList hidden ++
      (output.tokens ++ [rbrace]))), ?_, hword, map_mem_mark_mul_iff.2 ⟨_, _, rfl, hlbrace, ?_⟩⟩
    · simp [tokens, tokensOfList, tokensOfList_append]
    · refine map_mem_mul_iff.2 ⟨_, _, rfl, (spells_block _ _).2 ⟨_, hinput, rfl⟩, ?_⟩
      refine map_mem_mul_iff.2 ⟨_, _, rfl, ((spells_block _).kstar _).2 ⟨_, hhidden, rfl⟩, ?_⟩
      exact map_mem_mul_iff.2 ⟨_, _, rfl, (spells_block _ _).2 ⟨_, houtput, rfl⟩,
        map_mem_mark_iff.2 ⟨_, rfl, hrbrace⟩⟩

end NeuralArch.Syntax
