import NeuralArch.Proofs.Lexing.Longest
import NeuralArch.Proofs.Meaning.Reduction
import NeuralArch.Proofs.Wording.Description

/-!
# Trees of words

Tokens with the words of a description form its tree: the word of a token
decides its kind, since no word belongs to two kinds.  What is known of the parts
is carried along, whatever it is.

* `Reads` — what all token lists with given words have in common.
* `Legible` — words that are tokens, as all words of a description are if those of
  its values are.
* `WordTree` — the trees of keywords, with one lemma for each class of them.
* `reads_dilationTree`, `reads_assignmentTree`, `reads_blockTree`,
  `reads_descriptionTree` — one lemma for each construction of the language.
-/

namespace NeuralArch.Wording

open NeuralArch.Tree
open Token Syntax Lexing Meaning

variable {w w' : List String} {G G' : List Tree → Prop}

/-- Tokens with the given words are the leaves of trees with a property. -/
def Reads (words : List String) (G : List Tree → Prop) : Prop :=
  ∀ ts : List Token, (∀ t ∈ ts, Fits t) → ts.map Token.value = words →
    ∃ trees, tokensOfList trees = ts ∧ G trees

theorem Reads.mono (h : Reads w G) (hG : ∀ trees, G trees → G' trees) : Reads w G' := by
  intro ts hfits hwords
  obtain ⟨trees, htokens, hgood⟩ := h ts hfits hwords
  exact ⟨trees, htokens, hG trees hgood⟩

theorem reads_nil : Reads [] fun trees => trees = [] := by
  intro ts _ hwords
  exact ⟨[], (List.map_eq_nil_iff.1 hwords).symm, rfl⟩

/-- Words side by side are read side by side. -/
theorem Reads.append (h : Reads w G) (h' : Reads w' G') :
    Reads (w ++ w') fun trees => ∃ us vs, trees = us ++ vs ∧ G us ∧ G' vs := by
  intro ts hfits hwords
  obtain ⟨ts₁, ts₂, rfl, h₁, h₂⟩ := List.map_eq_append_iff.1 hwords
  obtain ⟨us, hus, hG⟩ := h ts₁ (fun t ht => hfits t (List.mem_append_left _ ht)) h₁
  obtain ⟨vs, hvs, hG'⟩ := h' ts₂ (fun t ht => hfits t (List.mem_append_right _ ht)) h₂
  exact ⟨us ++ vs, by rw [tokensOfList_append, hus, hvs], us, vs, rfl, hG, hG'⟩

/-- A word is read as a leaf. -/
theorem reads_singleton (word : String) :
    Reads [word] fun trees => ∃ t, trees = [leaf t] ∧ t.value = word ∧ Fits t := by
  intro ts hfits hwords
  obtain ⟨t, rfl, ht⟩ := List.map_eq_singleton_iff.1 hwords
  exact ⟨[leaf t], rfl, t, rfl, ht, hfits t (List.mem_singleton_self t)⟩

theorem Reads.cons (word : String) (h : Reads w G) :
    Reads (word :: w) fun trees =>
      ∃ t us, trees = leaf t :: us ∧ (t.value = word ∧ Fits t) ∧ G us := by
  refine ((reads_singleton word).append h).mono fun trees htrees => ?_
  obtain ⟨_, us, rfl, ⟨t, rfl, ht⟩, hG⟩ := htrees
  exact ⟨t, us, rfl, ht, hG⟩

/-- The trees of what is read are the children of a node. -/
theorem Reads.node (h : Reads w G) (k : NodeKind) :
    Reads w fun trees => ∃ us, trees = [node k us] ∧ G us := by
  intro ts hfits hwords
  obtain ⟨us, htokens, hG⟩ := h ts hfits hwords
  exact ⟨[Tree.node k us], by simp [tokensOfList, tokens, htokens], us, rfl, hG⟩

/-- What is written one by one is read one by one. -/
theorem reads_flatMap {α : Type} {xs : List α} {f : α → List String} {S : α → Tree → Prop}
    (h : ∀ x ∈ xs, Reads (f x) fun trees => ∃ tree, trees = [tree] ∧ S x tree) :
    Reads (xs.flatMap f) fun trees => List.Forall₂ S xs trees := by
  induction xs with
  | nil => exact reads_nil.mono fun trees htrees => htrees ▸ .nil
  | cons x xs ih =>
    rw [List.flatMap_cons]
    have hrest := ih fun x' hx' => h x' (List.mem_cons_of_mem _ hx')
    refine ((h x (List.mem_cons_self ..)).append hrest).mono fun trees htrees => ?_
    obtain ⟨_, us, rfl, ⟨tree, rfl, hS⟩, hall⟩ := htrees
    exact .cons hS hall

/-! ## Words and their kinds -/

/-- The only spelling of a kind belongs to no other kind. -/
theorem kind_of_spelling {t : Token} {k : Kind} {word : String} (hvalue : t.value = word)
    (hfits : Fits t) (hk : k.spelling? = some word) : t.kind = k := by
  subst hvalue
  exact pattern_injective hfits ((mem_pattern_of_spelling? hk).2 rfl)

theorem reads_spelling (k : Kind) {word : String} (hk : k.spelling? = some word) :
    Reads [word] fun trees => ∃ t, trees = [leaf t] ∧ t.kind = k := by
  refine (reads_singleton word).mono fun trees htrees => ?_
  obtain ⟨t, rfl, hvalue, hfits⟩ := htrees
  exact ⟨t, rfl, kind_of_spelling hvalue hfits hk⟩

/-! ## Legible words -/

/-- Every word is a token of its own. -/
def Legible (words : List String) : Prop := ∀ w ∈ words, ∃ k, w.toList ∈ pattern k

theorem legible_spelling {k : Kind} {word : String} (hk : k.spelling? = some word) :
    ∃ k, word.toList ∈ pattern k :=
  ⟨k, (mem_pattern_of_spelling? hk).2 rfl⟩

theorem legible_dilations {first : String} {rest : List String}
    (hfirst : first.toList ∈ pattern .int) (hrest : ∀ item ∈ rest, item.toList ∈ pattern .int) :
    Legible ("[" :: first :: (moreItems rest ++ ["]"])) := by
  refine List.forall_mem_cons.2 ⟨@legible_spelling .lsqb _ rfl,
    List.forall_mem_cons.2 ⟨⟨.int, hfirst⟩, List.forall_mem_append.2 ⟨fun w hw => ?_,
      List.forall_mem_singleton.2 (@legible_spelling .rsqb _ rfl)⟩⟩⟩
  obtain ⟨item, hitem, hw⟩ := List.mem_flatMap.1 hw
  rcases List.mem_cons.1 hw with rfl | hw
  · exact @legible_spelling .comma _ rfl
  · rw [List.mem_singleton.1 hw]
    exact ⟨.int, hrest item hitem⟩

theorem legible_assignment {a : Assignment} (h : Legible a.value) : Legible a.words :=
  List.forall_mem_cons.2 ⟨@legible_spelling (.param a.param) _ rfl,
    List.forall_mem_cons.2 ⟨@legible_spelling .equal _ rfl,
      List.forall_mem_append.2 ⟨h,
        List.forall_mem_singleton.2 (@legible_spelling .semicolon _ rfl)⟩⟩⟩

theorem legible_block {k : Kind} {head : String} (hk : k.spelling? = some head)
    {params : List Assignment} (h : ∀ a ∈ params, Legible a.value) :
    Legible (blockWords head params) := by
  refine List.forall_mem_cons.2 ⟨legible_spelling hk,
    List.forall_mem_cons.2 ⟨@legible_spelling .lbrace _ rfl,
      List.forall_mem_append.2 ⟨fun w hw => ?_,
        List.forall_mem_singleton.2 (@legible_spelling .rbrace _ rfl)⟩⟩⟩
  obtain ⟨a, ha, hw⟩ := List.mem_flatMap.1 hw
  exact legible_assignment (h a ha) w hw

theorem legible_description {d : Description} (hinput : ∀ a ∈ d.input, Legible a.value)
    (hlayers : ∀ l ∈ d.layers, ∀ a ∈ l.params, Legible a.value)
    (houtput : ∀ a ∈ d.output, Legible a.value) : Legible d.words := by
  have hin := @legible_block .input _ rfl d.input hinput
  have hout := @legible_block .output _ rfl d.output houtput
  refine List.forall_mem_cons.2 ⟨@legible_spelling .neuralnet _ rfl,
    List.forall_mem_cons.2 ⟨@legible_spelling .lbrace _ rfl,
      List.forall_mem_append.2 ⟨List.forall_mem_append.2 ⟨List.forall_mem_append.2
        ⟨hin, fun w hw => ?_⟩, hout⟩,
        List.forall_mem_singleton.2 (@legible_spelling .rbrace _ rfl)⟩⟩⟩
  obtain ⟨l, hl, hw⟩ := List.mem_flatMap.1 hw
  exact @legible_block (.layer l.type) _ rfl l.params (hlayers l hl) w hw

/-! ## Keywords as values -/

/-- The tree of a keyword as a value of a shape: it stands for its word alone. -/
structure WordTree (s : ValueShape) (word : String) (tree : Tree) : Prop where
  shape : ValueTree s tree
  valueOf_iff : ∀ {v : ParamValue}, ValueOf tree v ↔ v = .text word

/-- A word of a class that has a node of its own. -/
theorem reads_wrapped {s : ValueShape} (k : Kind) {word : String} (c : NodeKind)
    (hk : k.spelling? = some word) (hkeyword : k.keyword? = some word)
    (hshape : ∀ t : Token, t.kind = k → ValueTree s (node c [leaf t])) :
    Reads [word] fun trees => ∃ tree, trees = [tree] ∧ WordTree s word tree := by
  refine ((reads_spelling k hk).node c).mono fun trees htrees => ?_
  obtain ⟨_, rfl, t, rfl, htk⟩ := htrees
  exact ⟨_, rfl, hshape t htk, valueOf_wrapped_iff (by rw [htk, hkeyword])⟩

/-- A word of a class that has none. -/
theorem reads_word {s : ValueShape} (k : Kind) {word : String} (hk : k.spelling? = some word)
    (hkeyword : k.keyword? = some word)
    (hshape : ∀ t : Token, t.kind = k → ValueTree s (leaf t)) :
    Reads [word] fun trees => ∃ tree, trees = [tree] ∧ WordTree s word tree := by
  refine (reads_spelling k hk).mono fun trees htrees => ?_
  obtain ⟨t, rfl, htk⟩ := htrees
  exact ⟨_, rfl, hshape t htk, valueOf_word_iff (by rw [htk, hkeyword])⟩

theorem reads_activation (f : Activation) :
    Reads [f.word] fun trees => ∃ tree, trees = [tree] ∧ WordTree .activation f.word tree :=
  reads_wrapped (.activation f) .activationFn rfl rfl fun t ht => ⟨t, by rw [ht]; rfl, rfl⟩

theorem reads_initializer (i : Initializer) :
    Reads [i.word] fun trees => ∃ tree, trees = [tree] ∧ WordTree .initializer i.word tree :=
  reads_wrapped (.initializer i) .kernelInitializer rfl rfl fun t ht => ⟨t, by rw [ht]; rfl, rfl⟩

theorem reads_padding (m : PaddingMode) :
    Reads [m.word] fun trees => ∃ tree, trees = [tree] ∧ WordTree .padding m.word tree :=
  reads_word (.padding m) rfl rfl fun t ht => ⟨t, by rw [ht]; rfl, rfl⟩

theorem reads_poolType (p : PoolType) :
    Reads [p.word] fun trees => ∃ tree, trees = [tree] ∧ WordTree .poolType p.word tree :=
  reads_word (.poolType p) rfl rfl fun t ht => ⟨t, by rw [ht]; rfl, rfl⟩

/-! ## Constructions -/

/-- The items of a dilation list stand for the integers they are read as. -/
theorem reads_itemTrees {items : List String} (h : ∀ item ∈ items, item.toList ∈ pattern .int) :
    Reads (moreItems items ++ ["]"]) fun trees => ItemTrees trees ∧
      ∀ is, ItemsOf trees is ↔
        List.Forall₂ (fun item i => Number.readInt64? item = some i) items is := by
  induction items with
  | nil =>
    refine (reads_singleton "]").mono fun trees htrees => ?_
    obtain ⟨t, rfl, hvalue, hfits⟩ := htrees
    refine ⟨.close (kind_of_spelling hvalue hfits rfl), fun is => ?_⟩
    rw [List.forall₂_nil_left_iff]
    constructor
    · rintro ⟨⟩
      rfl
    · rintro rfl
      exact .close
  | cons item items ih =>
    rw [List.forall_mem_cons] at h
    refine (((ih h.2).cons item).cons ",").mono fun trees htrees => ?_
    obtain ⟨comma, _, rfl, hcomma, number, rest, rfl, ⟨rfl, hfits⟩, hrest, his⟩ := htrees
    refine ⟨.item (kind_of_spelling hcomma.1 hcomma.2 rfl) (pattern_injective hfits h.1) hrest,
      fun is => ?_⟩
    rw [List.forall₂_cons_left_iff]
    constructor
    · rintro (_ | ⟨hread, hitems⟩)
      exact ⟨_, _, hread, (his _).1 hitems, rfl⟩
    · rintro ⟨i, is, hread, hitems, rfl⟩
      exact .item hread ((his _).2 hitems)

/-- A dilation list stands for the list of its integers. -/
theorem reads_dilationTree {first : String} {rest : List String}
    (hfirst : first.toList ∈ pattern .int) (hrest : ∀ item ∈ rest, item.toList ∈ pattern .int) :
    Reads ("[" :: first :: (moreItems rest ++ ["]"])) fun trees =>
      ∃ cs, trees = [node .dilationList cs] ∧ ValueTree .dilationList (node .dilationList cs) ∧
        ∀ v, ValueOf (node .dilationList cs) v ↔ ∃ is, v = .list is ∧
          List.Forall₂ (fun item i => Number.readInt64? item = some i) (first :: rest) is := by
  have hwords := ((reads_itemTrees hrest).cons first).cons "["
  refine (hwords.node .dilationList).mono fun trees htrees => ?_
  obtain ⟨_, rfl, bracket, _, rfl, hbracket, number, items, rfl, ⟨rfl, hfits⟩, hitems, his⟩ :=
    htrees
  refine ⟨_, rfl, ⟨bracket, number, items, kind_of_spelling hbracket.1 hbracket.2 rfl,
    pattern_injective hfits hfirst, hitems, rfl⟩, fun v => ?_⟩
  simp only [List.forall₂_cons_left_iff]
  constructor
  · rintro (_ | _ | _ | _ | ⟨hread, hrest⟩)
    · exact ⟨_, rfl, _, _, hread, (his _).1 hrest, rfl⟩
  · rintro ⟨_, rfl, i, is, hread, hrest, rfl⟩
    exact .list hread ((his _).2 hrest)

/-- An assignment forms the tree of a parameter. -/
theorem reads_assignmentTree {b : Block} {a : Assignment} {V : Tree → Prop}
    (hadmits : b.admits a.param = true)
    (hvalue : Reads a.value fun trees =>
      ∃ tree, trees = [tree] ∧ ValueTree a.param.shape tree ∧ V tree) :
    Reads a.words fun trees => ∃ (name equals semicolon : Token) (value : Tree),
      trees = [node (paramKind b) [leaf name, leaf equals, value, leaf semicolon]] ∧
        ParamTree b (node (paramKind b) [leaf name, leaf equals, value, leaf semicolon]) ∧
        name.kind = .param a.param ∧ name.value = a.param.word ∧ V value := by
  have hwords := (((hvalue.append (reads_spelling .semicolon rfl)).cons "=").cons a.param.word)
  refine (hwords.node (paramKind b)).mono fun trees htrees => ?_
  obtain ⟨_, rfl, name, _, rfl, ⟨hname, hnameFits⟩, equals, _, rfl, hequals, _, _, rfl,
    ⟨value, rfl, hshape, hV⟩, semicolon, rfl, hsemicolon⟩ := htrees
  have hkind : name.kind = .param a.param := kind_of_spelling hname hnameFits rfl
  have hequalsKind : equals.kind = .equal := kind_of_spelling hequals.1 hequals.2 rfl
  exact ⟨name, equals, semicolon, value, rfl,
    .assignment hkind hadmits hequalsKind hshape hsemicolon, hkind, hname, hV⟩

/-- The word of an input or output block. -/
theorem reads_endHead {b : Block} (k : Kind) {word : String} (hk : k.spelling? = some word)
    (hhead : ∀ t : Token, t.kind = k → HeadTree b (leaf t)) :
    Reads [word] fun trees => ∃ tree, trees = [tree] ∧ HeadTree b tree ∧ True := by
  refine (reads_spelling k hk).mono fun trees htrees => ?_
  obtain ⟨t, rfl, ht⟩ := htrees
  exact ⟨_, rfl, hhead t ht, trivial⟩

/-- The type of a hidden layer, in its own node. -/
theorem reads_layerHead (type : LayerType) :
    Reads [type.word] fun trees => ∃ tree, trees = [tree] ∧ HeadTree .hidden tree ∧
      ∃ t, tree = node .layerType [leaf t] ∧ t.kind = .layer type ∧ t.value = type.word := by
  refine ((reads_singleton type.word).node .layerType).mono fun trees htrees => ?_
  obtain ⟨_, rfl, t, rfl, hvalue, hfits⟩ := htrees
  have hk : t.kind = .layer type := kind_of_spelling hvalue hfits rfl
  exact ⟨_, rfl, ⟨t, by rw [hk]; rfl, rfl⟩, t, rfl, hk, hvalue⟩

/-- A head with assignments in braces forms the tree of a block. -/
theorem reads_blockTree {α : Type} {b : Block} {head : String} {params : List α}
    {f : α → List String} {H : Tree → Prop} {S : α → Tree → Prop}
    (hhead : Reads [head] fun trees => ∃ tree, trees = [tree] ∧ HeadTree b tree ∧ H tree)
    (hparams : ∀ a ∈ params, Reads (f a) fun trees =>
      ∃ tree, trees = [tree] ∧ ParamTree b tree ∧ S a tree) :
    Reads (head :: "\x7b" :: (params.flatMap f ++ ["\x7d"])) fun trees =>
      ∃ (front : Tree) (lbrace rbrace : Token) (ps : List Tree),
        trees = [node (blockKind b) ([front, leaf lbrace] ++ ps ++ [leaf rbrace])] ∧
          BlockTree b (node (blockKind b) ([front, leaf lbrace] ++ ps ++ [leaf rbrace])) ∧
          HeadTree b front ∧ H front ∧ List.Forall₂ S params ps := by
  have hbody := ((reads_flatMap hparams).append (reads_spelling .rbrace rfl)).cons "\x7b"
  refine ((hhead.append hbody).node (blockKind b)).mono fun trees htrees => ?_
  obtain ⟨_, rfl, _, _, rfl, ⟨front, rfl, hfront, hH⟩, lbrace, _, rfl, hlbrace, ps, _, rfl, hps,
    rbrace, rfl, hrbrace⟩ := htrees
  have hlbraceKind : lbrace.kind = .lbrace := kind_of_spelling hlbrace.1 hlbrace.2 rfl
  have hshapes : ∀ p ∈ ps, ParamTree b p := by
    intro p hp
    obtain ⟨a, -, ha, -⟩ := exists_of_forall₂ hps hp
    exact ha
  refine ⟨front, lbrace, rbrace, ps, rfl, .braces hfront hlbraceKind hshapes hrbrace, hfront, hH,
    hps.imp fun _ _ hp => hp.2⟩

/-- Blocks between braces form the tree of a description. -/
theorem reads_descriptionTree {α : Type} {input output : List String} {layers : List α}
    {f : α → List String} {I O : Tree → Prop} {L : α → Tree → Prop}
    (hinput : Reads input fun trees => ∃ tree, trees = [tree] ∧ BlockTree .input tree ∧ I tree)
    (hlayers : ∀ l ∈ layers, Reads (f l) fun trees =>
      ∃ tree, trees = [tree] ∧ BlockTree .hidden tree ∧ L l tree)
    (houtput : Reads output fun trees =>
      ∃ tree, trees = [tree] ∧ BlockTree .output tree ∧ O tree) :
    Reads ("neuralnet" :: "\x7b" :: (input ++ layers.flatMap f ++ output ++ ["\x7d"]))
        fun trees =>
      ∃ (word lbrace rbrace : Token) (first last : Tree) (hidden : List Tree),
        trees = [node .ann ([leaf word, leaf lbrace, first] ++ hidden ++ [last, leaf rbrace])] ∧
          DescriptionTree
            (node .ann ([leaf word, leaf lbrace, first] ++ hidden ++ [last, leaf rbrace])) ∧
          I first ∧ List.Forall₂ L layers hidden ∧ O last := by
  have hbody := ((hinput.append (reads_flatMap hlayers)).append houtput).append
    (reads_spelling .rbrace rfl)
  refine (((hbody.cons "\x7b").cons "neuralnet").node .ann).mono fun trees htrees => ?_
  obtain ⟨_, rfl, word, _, rfl, hword, lbrace, _, rfl, hlbrace, _, _, rfl, ⟨_, _, rfl,
    ⟨_, hidden, rfl, ⟨first, rfl, hfirst, hI⟩, hall⟩, last, rfl, hlast, hO⟩, rbrace, rfl,
    hrbrace⟩ := htrees
  have hwordKind : word.kind = .neuralnet := kind_of_spelling hword.1 hword.2 rfl
  have hlbraceKind : lbrace.kind = .lbrace := kind_of_spelling hlbrace.1 hlbrace.2 rfl
  have hshapes : ∀ tree ∈ hidden, BlockTree .hidden tree := by
    intro tree htree
    obtain ⟨l, -, hl, -⟩ := exists_of_forall₂ hall htree
    exact hl
  refine ⟨word, lbrace, rbrace, first, last, hidden, by simp,
    .network hwordKind hlbraceKind hfirst hshapes hlast hrbrace, hI,
    hall.imp fun _ _ hl => hl.2, hO⟩

end NeuralArch.Wording
