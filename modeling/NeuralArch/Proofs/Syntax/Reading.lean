import NeuralArch.Proofs.Syntax.Shape

/-!
# Readers and the shapes they read

Each reader of the recursive descent is an equivalence: it takes a tree from
the front of a list of tokens exactly when the tree has the documented shape
and its leaves are what was taken.  Soundness and completeness are the two
halves of one statement, so they compose together, bind by bind.

Only repetition needs to know what comes next: `params` and `hiddenBlocks`
stop where the next token starts no further item.

* `description_eq_ok_iff` — the reader of whole descriptions.
* `ofText_eq_ok_iff` — a text has a tree exactly when its tokens are the
  leaves of a description tree.
* `exists_tree_iff_sentence` — the accepted texts are those whose tokens are a
  sentence.
-/

namespace NeuralArch.Syntax

open NeuralArch.Tree
open Token

variable {fin : Position} {ts us : List Token}

/-! ## Single tokens -/

theorem one_eq_ok_iff {e : SyntaxError.Expected} {accept : Kind → Bool} {t : Token} :
    one fin e accept ts = .ok (t, us) ↔ accept t.kind = true ∧ ts = t :: us := by
  cases ts with
  | nil => simp [one]
  | cons t' ts =>
    rw [one]
    by_cases h : accept t'.kind = true
    · rw [if_pos h]
      constructor
      · intro heq
        obtain ⟨rfl, rfl⟩ := Prod.mk.injEq .. ▸ Except.ok.injEq .. ▸ heq
        exact ⟨h, rfl⟩
      · rintro ⟨-, heq⟩
        rw [List.cons.injEq] at heq
        rw [heq.1, heq.2]
    · rw [if_neg h]
      constructor
      · intro heq
        exact absurd heq (by simp)
      · rintro ⟨ht, heq⟩
        rw [List.cons.injEq] at heq
        exact absurd (heq.1 ▸ ht) h

theorem mark_eq_ok_iff {e : SyntaxError.Expected} {k : Kind} {tree : Tree} :
    Tree.mark fin e k ts = .ok (tree, us) ↔
      ∃ t : Token, t.kind = k ∧ tree = leaf t ∧ ts = t :: us := by
  rw [Tree.mark, Reader.bind_eq_ok]
  constructor
  · rintro ⟨t, vs, hone, hpure⟩
    obtain ⟨hk, rfl⟩ := one_eq_ok_iff.1 hone
    obtain ⟨rfl, rfl⟩ := Reader.pure_eq_ok.1 hpure
    exact ⟨t, by simpa using hk, rfl, rfl⟩
  · rintro ⟨t, hk, rfl, rfl⟩
    exact ⟨t, us, one_eq_ok_iff.2 ⟨by simpa using hk, rfl⟩, rfl⟩

/-- One token of an accepted kind, with something made of it. -/
theorem wrapped_eq_ok_iff {e : SyntaxError.Expected} {accept : Kind → Bool}
    {wrap : Token → Tree} {tree : Tree} :
    (do let t ← one fin e accept; return wrap t : Reader Tree) ts = .ok (tree, us) ↔
      ∃ t : Token, accept t.kind = true ∧ tree = wrap t ∧ ts = t :: us := by
  rw [Reader.bind_eq_ok]
  constructor
  · rintro ⟨t, vs, hone, hpure⟩
    obtain ⟨hk, rfl⟩ := one_eq_ok_iff.1 hone
    obtain ⟨rfl, rfl⟩ := Reader.pure_eq_ok.1 hpure
    exact ⟨t, hk, rfl, rfl⟩
  · rintro ⟨t, hk, rfl, rfl⟩
    exact ⟨t, us, one_eq_ok_iff.2 ⟨hk, rfl⟩, rfl⟩

/-! ## Values -/

theorem dilationItems_append {items : List Tree} (h : ItemTrees items) :
    dilationItems fin (tokensOfList items ++ us) = .ok (items, us) := by
  induction h with
  | close hbracket =>
    rw [dilationItems.eq_def]
    simp [tokensOfList, tokens, hbracket]
  | item hcomma hnumber _ ih =>
    simp [tokensOfList, tokens, dilationItems, hcomma, hnumber, ih]

theorem dilationItems_eq_ok_iff {items : List Tree} :
    dilationItems fin ts = .ok (items, us) ↔
      ItemTrees items ∧ ts = tokensOfList items ++ us := by
  constructor
  · intro h
    fun_induction dilationItems fin ts generalizing items with
    | case1 => simp at h
    | case2 => simp at h
    | case3 => simp at h
    | case4 t hcomma n ts' hnumber items' vs hvs ih =>
      obtain ⟨rfl, rfl⟩ := Prod.mk.injEq .. ▸ Except.ok.injEq .. ▸ h
      obtain ⟨hitems, htokens⟩ := ih hvs
      exact ⟨.item hcomma hnumber hitems, by simp [tokensOfList, tokens, htokens]⟩
    | case5 => simp at h
    | case6 t vs hcomma hbracket =>
      obtain ⟨rfl, rfl⟩ := Prod.mk.injEq .. ▸ Except.ok.injEq .. ▸ h
      exact ⟨.close hbracket, rfl⟩
    | case7 => simp at h
  · rintro ⟨hitems, rfl⟩
    exact dilationItems_append hitems

theorem value_eq_ok_iff {s : ValueShape} {tree : Tree} :
    Tree.value fin s ts = .ok (tree, us) ↔ ValueTree s tree ∧ ts = tree.tokens ++ us := by
  have wrapped : ∀ {e : SyntaxError.Expected} {accept : Kind → Bool} (wrap : Token → Tree),
      (∀ t, (wrap t).tokens = [t]) →
      ((do let t ← one fin e accept; return wrap t : Reader Tree) ts = .ok (tree, us) ↔
        (∃ t : Token, accept t.kind = true ∧ tree = wrap t) ∧ ts = tree.tokens ++ us) := by
    intro e accept wrap htokens
    rw [wrapped_eq_ok_iff]
    constructor
    · rintro ⟨t, ht, rfl, rfl⟩
      exact ⟨⟨t, ht, rfl⟩, by rw [htokens]; rfl⟩
    · rintro ⟨⟨t, ht, rfl⟩, rfl⟩
      exact ⟨t, ht, rfl, by rw [htokens]; rfl⟩
  cases s with
  | number => exact wrapped leaf fun _ => rfl
  | padding => exact wrapped leaf fun _ => rfl
  | poolType => exact wrapped leaf fun _ => rfl
  | activation => exact wrapped (fun t => node .activationFn [leaf t]) fun _ => rfl
  | initializer => exact wrapped (fun t => node .kernelInitializer [leaf t]) fun _ => rfl
  | dilationList =>
    rw [Tree.value, Tree.dilationList]
    simp only [Reader.bind_eq_ok, Reader.pure_eq_ok, mark_eq_ok_iff, dilationItems_eq_ok_iff]
    constructor
    · rintro ⟨_, _, ⟨bracket, hbracket, rfl, rfl⟩, _, _, ⟨first, hfirst, rfl, rfl⟩,
        items, _, ⟨hitems, rfl⟩, rfl, rfl⟩
      exact ⟨⟨bracket, first, items, hbracket, hfirst, hitems, rfl⟩, rfl⟩
    · rintro ⟨⟨bracket, first, items, hbracket, hfirst, hitems, rfl⟩, rfl⟩
      exact ⟨_, _, ⟨bracket, hbracket, rfl, rfl⟩, _, _, ⟨first, hfirst, rfl, rfl⟩,
        items, _, ⟨hitems, rfl⟩, rfl, rfl⟩

/-! ## Parameters -/

/-- A name that its block admits. -/
theorem admits_iff {b : Block} {k : Kind} :
    (k.param?.any b.admits) = true ↔ ∃ p, k = .param p ∧ b.admits p = true := by
  cases k <;> simp [Kind.param?]

theorem shape?_param (p : ParamName) : (Kind.param p).shape?.getD .number = p.shape := rfl

theorem param_eq_ok_iff {b : Block} {tree : Tree} :
    Tree.param fin b ts = .ok (tree, us) ↔ ParamTree b tree ∧ ts = tree.tokens ++ us := by
  rw [Tree.param]
  simp only [Reader.bind_eq_ok, Reader.pure_eq_ok, mark_eq_ok_iff, one_eq_ok_iff,
    value_eq_ok_iff, admits_iff]
  constructor
  · rintro ⟨name, _, ⟨⟨p, hname, hadmits⟩, rfl⟩, _, _, ⟨equals, hequals, rfl, rfl⟩, v, _,
      ⟨hv, rfl⟩, _, _, ⟨semicolon, hsemicolon, rfl, rfl⟩, rfl, rfl⟩
    rw [hname, shape?_param] at hv
    exact ⟨.assignment hname hadmits hequals hv hsemicolon, by simp [tokens, tokensOfList]⟩
  · rintro ⟨⟨hname, hadmits, hequals, hv, hsemicolon⟩, rfl⟩
    rename_i name equals semicolon p v
    refine ⟨name, _, ⟨⟨p, hname, hadmits⟩, rfl⟩, _, _, ⟨equals, hequals, rfl, rfl⟩, v,
      semicolon :: us, ⟨by rwa [hname, shape?_param], by simp [tokens, tokensOfList]⟩, _, _,
      ⟨semicolon, hsemicolon, rfl, rfl⟩, rfl, rfl⟩

/-- A parameter begins with a name. -/
theorem ParamTree.startsParam {b : Block} {tree : Tree} (h : ParamTree b tree) :
    Tree.startsParam (tree.tokens ++ us) = true := by
  obtain ⟨hname, -, -, -, -⟩ := h
  simp [tokens, tokensOfList, Tree.startsParam, hname, Kind.param?]

theorem params_append {b : Block} {ps : List Tree} (h : ∀ p ∈ ps, ParamTree b p)
    (hstop : startsParam us = false) :
    Tree.params fin b (tokensOfList ps ++ us) = .ok (ps, us) := by
  induction ps with
  | nil => rw [Tree.params.eq_def]; simp [tokensOfList, hstop]
  | cons p ps ih =>
    have hp := h p (List.mem_cons_self ..)
    have hrest := ih fun q hq => h q (List.mem_cons_of_mem _ hq)
    have hread : Tree.param fin b (tokensOfList (p :: ps) ++ us)
        = .ok (p, tokensOfList ps ++ us) :=
      param_eq_ok_iff.2 ⟨hp, by rw [tokensOfList, List.append_assoc]⟩
    have hstart : startsParam (tokensOfList (p :: ps) ++ us) = true := by
      rw [tokensOfList, List.append_assoc]
      exact hp.startsParam
    rw [Tree.params.eq_def, if_pos hstart]
    split
    · next e he => simp [hread] at he
    · next first vs hfirst =>
      rw [hread, Except.ok.injEq, Prod.mk.injEq] at hfirst
      obtain ⟨rfl, rfl⟩ := hfirst
      rw [hrest]

theorem params_eq_ok_iff {b : Block} {ps : List Tree} :
    Tree.params fin b ts = .ok (ps, us) ↔
      (∀ p ∈ ps, ParamTree b p) ∧ ts = tokensOfList ps ++ us ∧ startsParam us = false := by
  constructor
  · intro h
    fun_induction Tree.params fin b ts generalizing ps with
    | case1 => simp at h
    | case2 => simp_all
    | case3 ts _ first vs hfirst _ rest ws hrest ih =>
      obtain ⟨rfl, rfl⟩ := Prod.mk.injEq .. ▸ Except.ok.injEq .. ▸ h
      obtain ⟨hp, rfl⟩ := param_eq_ok_iff.1 hfirst
      obtain ⟨hps, rfl, hstop⟩ := ih hrest
      exact ⟨List.forall_mem_cons.2 ⟨hp, hps⟩,
        by rw [tokensOfList, List.append_assoc], hstop⟩
    | case4 ts hstop =>
      obtain ⟨rfl, rfl⟩ := Prod.mk.injEq .. ▸ Except.ok.injEq .. ▸ h
      exact ⟨by simp, rfl, by simpa using hstop⟩
  · rintro ⟨hps, rfl, hstop⟩
    exact params_append hps hstop

/-! ## Blocks -/

theorem startsParam_cons_eq_false {t : Token} (h : t.kind = .rbrace) :
    startsParam (t :: ts) = false := by
  simp [startsParam, h, Kind.param?]

/-- What stands in braces behind a head.  A closing brace begins no parameter, so
repetition stops there. -/
theorem braces_eq_ok_iff {b : Block} {e : SyntaxError.Expected} {kind : NodeKind}
    {head tree : Tree} :
    (do
      let lbrace ← Tree.mark fin .openBrace .lbrace
      let ps ← Tree.params fin b
      let rbrace ← Tree.mark fin e .rbrace
      return node kind ([head, lbrace] ++ ps ++ [rbrace]) : Reader Tree) ts = .ok (tree, us) ↔
      ∃ lbrace params rbrace, lbrace.kind = .lbrace ∧ (∀ p ∈ params, ParamTree b p) ∧
        rbrace.kind = .rbrace ∧
        tree = node kind ([head, leaf lbrace] ++ params ++ [leaf rbrace]) ∧
        ts = lbrace :: (tokensOfList params ++ rbrace :: us) := by
  simp only [Reader.bind_eq_ok, Reader.pure_eq_ok, mark_eq_ok_iff, params_eq_ok_iff]
  constructor
  · rintro ⟨_, _, ⟨lbrace, hlbrace, rfl, rfl⟩, params, _, ⟨hparams, rfl, -⟩, _, _,
      ⟨rbrace, hrbrace, rfl, rfl⟩, rfl, rfl⟩
    exact ⟨lbrace, params, rbrace, hlbrace, hparams, hrbrace, rfl, rfl⟩
  · rintro ⟨lbrace, params, rbrace, hlbrace, hparams, hrbrace, rfl, rfl⟩
    exact ⟨_, _, ⟨lbrace, hlbrace, rfl, rfl⟩, params, _,
      ⟨hparams, rfl, startsParam_cons_eq_false hrbrace⟩, _, _,
      ⟨rbrace, hrbrace, rfl, rfl⟩, rfl, rfl⟩

theorem tokens_braces {kind : NodeKind} {head : Tree} {lbrace rbrace : Token}
    {params : List Tree} :
    (node kind ([head, leaf lbrace] ++ params ++ [leaf rbrace])).tokens ++ us =
      head.tokens ++ lbrace :: (tokensOfList params ++ rbrace :: us) := by
  simp [tokens, tokensOfList, tokensOfList_append]

/-- A block whose head is one keyword. -/
theorem endBlock_eq_ok_iff {b : Block} {e : SyntaxError.Expected} {keyword : Kind}
    {tree : Tree}
    (hhead : ∀ head, HeadTree b head ↔ ∃ t : Token, t.kind = keyword ∧ head = leaf t) :
    Tree.endBlock fin e keyword (blockKind b) b ts = .ok (tree, us) ↔
      BlockTree b tree ∧ ts = tree.tokens ++ us := by
  rw [Tree.endBlock, Reader.bind_eq_ok]
  simp only [mark_eq_ok_iff, braces_eq_ok_iff]
  constructor
  · rintro ⟨_, _, ⟨word, hword, rfl, rfl⟩, lbrace, params, rbrace, hlbrace, hparams,
      hrbrace, rfl, rfl⟩
    exact ⟨.braces ((hhead _).2 ⟨word, hword, rfl⟩) hlbrace hparams hrbrace,
      by rw [tokens_braces]; rfl⟩
  · rintro ⟨⟨hfront, hlbrace, hparams, hrbrace⟩, rfl⟩
    rename_i front lbrace rbrace params
    obtain ⟨word, hword, rfl⟩ := (hhead front).1 hfront
    exact ⟨_, _, ⟨word, hword, rfl, by rw [tokens_braces]; rfl⟩, lbrace, params, rbrace,
      hlbrace, hparams, hrbrace, rfl, rfl⟩

theorem inputBlock_eq_ok_iff {tree : Tree} :
    Tree.inputBlock fin ts = .ok (tree, us) ↔
      BlockTree .input tree ∧ ts = tree.tokens ++ us :=
  endBlock_eq_ok_iff fun _ => Iff.rfl

theorem outputBlock_eq_ok_iff {tree : Tree} :
    Tree.outputBlock fin ts = .ok (tree, us) ↔
      BlockTree .output tree ∧ ts = tree.tokens ++ us :=
  endBlock_eq_ok_iff fun _ => Iff.rfl

theorem hiddenBlock_eq_ok_iff {tree : Tree} :
    Tree.hiddenBlock fin ts = .ok (tree, us) ↔
      BlockTree .hidden tree ∧ ts = tree.tokens ++ us := by
  rw [Tree.hiddenBlock, Reader.bind_eq_ok]
  simp only [one_eq_ok_iff, braces_eq_ok_iff]
  constructor
  · rintro ⟨type, _, ⟨htype, rfl⟩, lbrace, params, rbrace, hlbrace, hparams, hrbrace,
      rfl, rfl⟩
    exact ⟨.braces ⟨type, htype, rfl⟩ hlbrace hparams hrbrace, by rw [tokens_braces]; rfl⟩
  · rintro ⟨⟨⟨type, htype, rfl⟩, hlbrace, hparams, hrbrace⟩, rfl⟩
    rename_i lbrace rbrace params
    exact ⟨type, _, ⟨htype, by rw [tokens_braces]; rfl⟩, lbrace, params, rbrace,
      hlbrace, hparams, hrbrace, rfl, rfl⟩

/-- A hidden block begins with a layer type. -/
theorem startsLayer_of_hidden {tree : Tree} (h : BlockTree .hidden tree) :
    startsLayer (tree.tokens ++ us) = true := by
  obtain ⟨⟨type, htype, rfl⟩, -, -, -⟩ := h
  rw [tokens_braces]
  exact htype

/-- An output block begins with a keyword that is no layer type. -/
theorem startsLayer_of_output {tree : Tree} (h : BlockTree .output tree) :
    startsLayer (tree.tokens ++ us) = false := by
  obtain ⟨⟨word, hword, rfl⟩, -, -, -⟩ := h
  rw [tokens_braces]
  simp [startsLayer, tokens, hword, Kind.layer?]

theorem hiddenBlocks_append {hs : List Tree} (h : ∀ t ∈ hs, BlockTree .hidden t)
    (hstop : startsLayer us = false) :
    Tree.hiddenBlocks fin (tokensOfList hs ++ us) = .ok (hs, us) := by
  induction hs with
  | nil => rw [Tree.hiddenBlocks.eq_def]; simp [tokensOfList, hstop]
  | cons t hs ih =>
    have ht := h t (List.mem_cons_self ..)
    have hrest := ih fun u hu => h u (List.mem_cons_of_mem _ hu)
    have hread : Tree.hiddenBlock fin (tokensOfList (t :: hs) ++ us)
        = .ok (t, tokensOfList hs ++ us) :=
      hiddenBlock_eq_ok_iff.2 ⟨ht, by rw [tokensOfList, List.append_assoc]⟩
    have hstart : startsLayer (tokensOfList (t :: hs) ++ us) = true := by
      rw [tokensOfList, List.append_assoc]
      exact startsLayer_of_hidden ht
    rw [Tree.hiddenBlocks.eq_def, if_pos hstart]
    split
    · next e he => simp [hread] at he
    · next first vs hfirst =>
      rw [hread, Except.ok.injEq, Prod.mk.injEq] at hfirst
      obtain ⟨rfl, rfl⟩ := hfirst
      rw [hrest]

theorem hiddenBlocks_eq_ok_iff {hs : List Tree} :
    Tree.hiddenBlocks fin ts = .ok (hs, us) ↔
      (∀ t ∈ hs, BlockTree .hidden t) ∧ ts = tokensOfList hs ++ us ∧
        startsLayer us = false := by
  constructor
  · intro h
    fun_induction Tree.hiddenBlocks fin ts generalizing hs with
    | case1 => simp at h
    | case2 => simp_all
    | case3 ts _ first vs hfirst _ rest ws hrest ih =>
      obtain ⟨rfl, rfl⟩ := Prod.mk.injEq .. ▸ Except.ok.injEq .. ▸ h
      obtain ⟨ht, rfl⟩ := hiddenBlock_eq_ok_iff.1 hfirst
      obtain ⟨hts, rfl, hstop⟩ := ih hrest
      exact ⟨List.forall_mem_cons.2 ⟨ht, hts⟩,
        by rw [tokensOfList, List.append_assoc], hstop⟩
    | case4 ts hstop =>
      obtain ⟨rfl, rfl⟩ := Prod.mk.injEq .. ▸ Except.ok.injEq .. ▸ h
      exact ⟨by simp, rfl, by simpa using hstop⟩
  · rintro ⟨hts, rfl, hstop⟩
    exact hiddenBlocks_append hts hstop

/-! ## Descriptions -/

theorem description_eq_ok_iff {tree : Tree} :
    Tree.description fin ts = .ok (tree, us) ↔
      DescriptionTree tree ∧ ts = tree.tokens ++ us := by
  rw [Tree.description]
  simp only [Reader.bind_eq_ok, Reader.pure_eq_ok, mark_eq_ok_iff, inputBlock_eq_ok_iff,
    outputBlock_eq_ok_iff, hiddenBlocks_eq_ok_iff]
  constructor
  · rintro ⟨_, _, ⟨word, hword, rfl, rfl⟩, _, _, ⟨lbrace, hlbrace, rfl, rfl⟩, input, _,
      ⟨hinput, rfl⟩, hidden, _, ⟨hhidden, rfl, -⟩, output, _, ⟨houtput, rfl⟩, _, _,
      ⟨rbrace, hrbrace, rfl, rfl⟩, rfl, rfl⟩
    refine ⟨.network hword hlbrace hinput hhidden houtput hrbrace, ?_⟩
    simp [tokens, tokensOfList, tokensOfList_append]
  · rintro ⟨⟨hword, hlbrace, hinput, hhidden, houtput, hrbrace⟩, rfl⟩
    rename_i word lbrace rbrace input output hidden
    refine ⟨_, _, ⟨word, hword, rfl, rfl⟩, _, _, ⟨lbrace, hlbrace, rfl, rfl⟩, input,
      tokensOfList hidden ++ (output.tokens ++ rbrace :: us), ⟨hinput, ?_⟩, hidden,
      output.tokens ++ rbrace :: us, ⟨hhidden, rfl, startsLayer_of_output houtput⟩, output, _,
      ⟨houtput, rfl⟩, _, _, ⟨rbrace, hrbrace, rfl, rfl⟩, rfl, rfl⟩
    simp [tokens, tokensOfList, tokensOfList_append]

theorem ofTokens_eq_ok_iff {tree : Tree} :
    Tree.ofTokens fin ts = .ok tree ↔ DescriptionTree tree ∧ tree.tokens = ts := by
  have hread : Tree.ofTokens fin ts = .ok tree ↔
      Tree.description fin ts = .ok (tree, []) := by
    rw [Tree.ofTokens]
    split
    · next h => simp [h]
    · next h => simp [h]
    · next h => simp [h]
  rw [hread, description_eq_ok_iff, List.append_nil, eq_comm (a := ts)]

/-- A text has a tree exactly when its tokens are the leaves of a description
tree, and this is the tree. -/
theorem ofText_eq_ok_iff {text : String} {tree : Tree} :
    Tree.ofText text = .ok tree ↔
      DescriptionTree tree ∧ Token.ofText text = .ok tree.tokens := by
  rw [Tree.ofText]
  cases h : Token.ofText text with
  | error e => simp [bind, Except.bind]
  | ok ts =>
    simp only [bind, Except.bind, ofTokens_eq_ok_iff, Except.ok.injEq, eq_comm (a := ts)]

/-- A text is accepted exactly when it can be cut into tokens that form a
sentence.  Its tree has the shape of a description at every node, and the leaves
of the tree from left to right are the tokens of the text. -/
theorem exists_tree_iff_sentence (text : String) :
    ((∃ tree, Tree.ofText text = .ok tree) ↔
      ∃ ts, Token.ofText text = .ok ts ∧ ts.map Token.kind ∈ description) ∧
    ∀ tree, Tree.ofText text = .ok tree ↔
      DescriptionTree tree ∧ Token.ofText text = .ok tree.tokens := by
  refine ⟨⟨?_, ?_⟩, fun tree => ofText_eq_ok_iff⟩
  · rintro ⟨tree, htree⟩
    obtain ⟨hshape, htokens⟩ := ofText_eq_ok_iff.1 htree
    exact ⟨tree.tokens, htokens, (spells_description _).2 ⟨tree, hshape, rfl⟩⟩
  · rintro ⟨ts, hts, hsentence⟩
    obtain ⟨tree, hshape, rfl⟩ := (spells_description ts).1 hsentence
    exact ⟨tree, ofText_eq_ok_iff.2 ⟨hshape, hts⟩⟩

end NeuralArch.Syntax
