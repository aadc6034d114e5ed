import NeuralArch.Proofs.Meaning.Conformance

/-!
# Trees whose tokens are moved

Validation and reduction pass places on and look at none. So if all places of a
tree are changed by one function, its findings are the same with their places
changed, its reduction is the same, and so is its architecture.

What follows for texts is about two at a time: texts with the same tokens, at
whatever places, have trees that differ by places only. These become one tree
when all places are changed to the same one.

* `visit_moved` — the findings of a moved tree.
* `reduce_moved` — its reduction.
* `compile_moved` — its architecture.
* `exists_tree_of_unplaced`, `compileText_of_unplaced` — texts with the same
  tokens.
-/

namespace NeuralArch

/-! ## Moving -/

def Token.moved (f : Position → Position) (t : Token) : Token := { t with pos := f t.pos }

def Diagnostic.moved (f : Position → Position) (d : Diagnostic) : Diagnostic :=
  { d with pos := f d.pos }

def InterpretError.moved (f : Position → Position) : InterpretError → InterpretError
  | unexpectedShape kind wanted pos => unexpectedShape kind wanted (pos.map f)
  | badNumber text pos => badNumber text (f pos)

def Reduced.moved (f : Position → Position) : Reduced → Reduced
  | token t => token (t.moved f)
  | r => r

mutual

/-- A tree with its tokens moved. -/
def Tree.moved (f : Position → Position) : Tree → Tree
  | .leaf t => .leaf (t.moved f)
  | .node k cs => .node k (Tree.movedAll f cs)

/-- Several trees with their tokens moved. -/
def Tree.movedAll (f : Position → Position) : List Tree → List Tree
  | [] => []
  | t :: ts => t.moved f :: Tree.movedAll f ts

end

namespace Meaning

open NeuralArch.Tree
open Token Syntax Lexing

variable (f : Position → Position)

@[simp] theorem kind_moved (t : Token) : (t.moved f).kind = t.kind := rfl

@[simp] theorem value_moved (t : Token) : (t.moved f).value = t.value := rfl

@[simp] theorem pos_moved (t : Token) : (t.moved f).pos = f t.pos := rfl

@[simp] theorem moved_leaf (t : Token) : (leaf t).moved f = leaf (t.moved f) := by
  rw [Tree.moved]

theorem movedAll_eq_map (ts : List Tree) : movedAll f ts = ts.map (Tree.moved f) := by
  induction ts with
  | nil => rw [movedAll, List.map_nil]
  | cons t ts ih => rw [movedAll, ih, List.map_cons]

@[simp] theorem moved_node (k : NodeKind) (cs : List Tree) :
    (node k cs).moved f = node k (cs.map (Tree.moved f)) := by
  rw [Tree.moved, movedAll_eq_map]

@[simp] theorem token?_moved (t : Tree) : (t.moved f).token? = t.token?.map (Token.moved f) := by
  cases t <;> simp [token?]

/-! ## Tokens and nodes of a moved tree -/

mutual

theorem tokens_moved : ∀ t : Tree, (t.moved f).tokens = t.tokens.map (Token.moved f)
  | leaf t => by rw [moved_leaf, tokens, tokens, List.map_singleton]
  | node k cs => by rw [moved_node, tokens, tokens, tokensOfList_moved]

theorem tokensOfList_moved : ∀ ts : List Tree,
    tokensOfList (ts.map (Tree.moved f)) = (tokensOfList ts).map (Token.moved f)
  | [] => by rw [List.map_nil, tokensOfList, List.map_nil]
  | t :: ts => by
    rw [List.map_cons, tokensOfList, tokensOfList, tokens_moved, tokensOfList_moved,
      List.map_append]

end

theorem firstToken?_moved (t : Tree) :
    (t.moved f).firstToken? = t.firstToken?.map (Token.moved f) := by
  rw [← head?_tokens, tokens_moved, List.head?_map, head?_tokens]

theorem firstTokenOfList?_moved (ts : List Tree) :
    firstTokenOfList? (ts.map (Tree.moved f)) = (firstTokenOfList? ts).map (Token.moved f) := by
  rw [← head?_tokensOfList, tokensOfList_moved, List.head?_map, head?_tokensOfList]

mutual

theorem find?_moved (k : NodeKind) : ∀ t : Tree,
    (t.moved f).find? k = (t.find? k).map (Tree.moved f)
  | leaf t => by rw [moved_leaf, find?, find?, Option.map_none]
  | node k' cs => by
    rw [moved_node, find?, find?, findInList?_moved]
    split
    · rw [Option.map_some, moved_node]
    · rfl

theorem findInList?_moved (k : NodeKind) : ∀ ts : List Tree,
    findInList? k (ts.map (Tree.moved f)) = (findInList? k ts).map (Tree.moved f)
  | [] => by rw [List.map_nil, findInList?, Option.map_none]
  | t :: ts => by
    rw [List.map_cons, findInList?, findInList?, find?_moved, findInList?_moved,
      Option.map_or]

end

/-! ## Validation -/

section

variable (r : RuleTable)

theorem checkRange_moved (name : Token) (value : Option Token) :
    r.checkRange (name.moved f) (value.map (Token.moved f)) =
      (r.checkRange name value).map (Diagnostic.moved f) := by
  cases value with
  | none => rfl
  | some value =>
    rw [Option.map_some, RuleTable.checkRange, RuleTable.checkRange, value_moved, value_moved]
    cases r.violation? name.value value.value <;> rfl

theorem paramParts?_moved (cs : List Tree) :
    RuleTable.paramParts? (cs.map (Tree.moved f)) =
      (RuleTable.paramParts? cs).map fun parts =>
        (parts.1.moved f, parts.2.map (Token.moved f)) := by
  match cs with
  | [] => rfl
  | node k cs :: rest => rw [List.map_cons, moved_node]; rfl
  | leaf name :: rest =>
    have hvalue : ((rest.map (Tree.moved f))[1]?.bind Tree.token?).filter (·.kind.isNumber) =
        ((rest[1]?.bind Tree.token?).filter (·.kind.isNumber)).map (Token.moved f) := by
      rw [List.getElem?_map]
      cases rest[1]? with
      | none => rfl
      | some v =>
        rw [Option.map_some, Option.bind_some, Option.bind_some, token?_moved, Option.filter_map]
        rfl
    rw [List.map_cons, moved_leaf, RuleTable.paramParts?, RuleTable.paramParts?, hvalue]
    rfl

theorem checkParam_moved (cs : List Tree) :
    r.checkParam (cs.map (Tree.moved f)) = (r.checkParam cs).map (Diagnostic.moved f) := by
  rw [RuleTable.checkParam, RuleTable.checkParam, paramParts?_moved]
  cases RuleTable.paramParts? cs with
  | none => rfl
  | some parts => exact checkRange_moved f r parts.1 parts.2

theorem checkLayerParam_moved (layer : String) (cs : List Tree) :
    r.checkLayerParam layer (cs.map (Tree.moved f)) =
      (r.checkLayerParam layer cs).map (Diagnostic.moved f) := by
  rw [RuleTable.checkLayerParam, RuleTable.checkLayerParam, paramParts?_moved]
  cases RuleTable.paramParts? cs with
  | none => rfl
  | some parts =>
    cases r.allowed? layer with
    | none => rfl
    | some allowed =>
      dsimp only [Option.map_some]
      rw [value_moved, checkRange_moved]
      split <;> rfl

theorem layerType_moved (cs : List Tree) :
    (findInList? .layerType (cs.map (Tree.moved f))).bind firstToken? =
      ((findInList? .layerType cs).bind firstToken?).map (Token.moved f) := by
  rw [findInList?_moved]
  cases findInList? .layerType cs with
  | none => rfl
  | some t => exact firstToken?_moved f t

mutual

/-- The findings of a moved tree are those of the tree, moved. -/
theorem visit_moved (layer : Option String) : ∀ t : Tree,
    r.visit layer (t.moved f) = (r.visit layer t).map (Diagnostic.moved f)
  | leaf t => by rw [moved_leaf, RuleTable.visit, RuleTable.visit, List.map_nil]
  | node kind cs => by
    have hall : ∀ layer, r.visitAll layer (cs.map (Tree.moved f)) =
        (r.visitAll layer cs).map (Diagnostic.moved f) :=
      fun layer => visitAll_moved layer cs
    rw [moved_node]
    cases kind with
    | hiddenLayer =>
      rw [RuleTable.visit, RuleTable.visit, layerType_moved]
      cases (findInList? .layerType cs).bind firstToken? with
      | none => exact hall none
      | some type =>
        dsimp only [Option.map_some]
        rw [value_moved]
        split
        · rfl
        · exact hall (some type.value)
    | layerParam =>
      cases layer with
      | none => rw [RuleTable.visit, RuleTable.visit, List.map_nil]
      | some layer => rw [RuleTable.visit, RuleTable.visit, checkLayerParam_moved]
    | inputParam => rw [RuleTable.visit, RuleTable.visit, checkParam_moved]
    | outputParam => rw [RuleTable.visit, RuleTable.visit, checkParam_moved]
    | _ =>
      rw [RuleTable.visit, RuleTable.visit]
      · exact hall layer
      all_goals simp

theorem visitAll_moved (layer : Option String) : ∀ ts : List Tree,
    r.visitAll layer (ts.map (Tree.moved f)) = (r.visitAll layer ts).map (Diagnostic.moved f)
  | [] => by rw [List.map_nil, RuleTable.visitAll, List.map_nil]
  | t :: ts => by
    rw [List.map_cons, RuleTable.visitAll, RuleTable.visitAll, visit_moved, visitAll_moved,
      List.map_append]

end

theorem validate_moved (t : Tree) :
    r.validate (t.moved f) = (r.validate t).map (Diagnostic.moved f) :=
  visit_moved f r none t

end

/-! ## Reduction -/

theorem reduce_token_moved (t : Token) :
    (t.moved f).reduce = (t.reduce.map (Reduced.moved f)).mapError (InterpretError.moved f) := by
  rw [Token.reduce, Token.reduce, kind_moved, value_moved]
  split
  · cases Number.readInt64? t.value <;> rfl
  · cases Number.readFloat? t.value <;> rfl
  · cases t.kind.keyword? <;> rfl

theorem isToken_moved (r : Reduced) : (r.moved f).isToken = r.isToken := by cases r <;> rfl

theorem param?_moved (r : Reduced) : (r.moved f).param? = r.param? := by cases r <;> rfl

theorem params_moved (items : List Reduced) :
    Reduced.params (items.map (Reduced.moved f)) = Reduced.params items := by
  rw [Reduced.params, Reduced.params, List.filterMap_map]
  congr 2
  funext r
  exact param?_moved f r

theorem dilations_moved (items : List Reduced) :
    Architecture.dilations (items.map (Reduced.moved f)) = Architecture.dilations items := by
  fun_induction Architecture.dilations items with
  | case1 => rfl
  | case2 t items ih => exact ih
  | case3 i items is his ih => simp [Reduced.moved, Architecture.dilations, ih, his]
  | case4 i items w hw ih => simp [Reduced.moved, Architecture.dilations, ih, hw]
  | case5 r items htoken hint =>
    cases r with
    | token t => exact absurd rfl (htoken t)
    | value v => cases v <;> simp_all [Reduced.moved, Architecture.dilations]
    | _ => rfl

theorem hiddenAndOutput_moved (items : List Reduced) :
    Architecture.hiddenAndOutput (items.map (Reduced.moved f)) =
      Architecture.hiddenAndOutput items := by
  fun_induction Architecture.hiddenAndOutput items with
  | case1 => rfl
  | case2 l items ls output h ih => simp [Reduced.moved, Architecture.hiddenAndOutput, ih, h]
  | case3 l items w h ih => simp [Reduced.moved, Architecture.hiddenAndOutput, ih, h]
  | case4 => rfl
  | case5 r items hhidden houtput =>
    cases r <;> simp_all [Reduced.moved, Architecture.hiddenAndOutput]

theorem assemble_moved (items : List Reduced) :
    Architecture.assemble (items.map (Reduced.moved f)) = Architecture.assemble items := by
  cases items with
  | nil => rfl
  | cons r items =>
    cases r <;> simp [Reduced.moved, Architecture.assemble, hiddenAndOutput_moved]

/-- A keyword stands alone. -/
theorem combine_keyword_moved {k : NodeKind}
    (hk : k = .layerType ∨ k = .activationFn ∨ k = .kernelInitializer) (items : List Reduced) :
    Architecture.combine k (items.map (Reduced.moved f)) = Architecture.combine k items := by
  match items with
  | [] => rcases hk with rfl | rfl | rfl <;> rfl
  | [r] =>
    cases r with
    | value v => rcases hk with rfl | rfl | rfl <;> cases v <;> rfl
    | _ => rcases hk with rfl | rfl | rfl <;> rfl
  | r :: _ :: _ =>
    cases r with
    | value v => rcases hk with rfl | rfl | rfl <;> cases v <;> rfl
    | _ => rcases hk with rfl | rfl | rfl <;> rfl

/-- Of the name of a parameter only its kind counts. -/
theorem combine_param_moved (b : Block) (items : List Reduced) :
    Architecture.combine (paramKind b) (items.map (Reduced.moved f)) =
      Architecture.combine (paramKind b) items := by
  match items with
  | [] => cases b <;> rfl
  | [r] => cases b <;> cases r <;> rfl
  | [r, _] => cases b <;> cases r <;> rfl
  | r :: _ :: v :: _ =>
    cases r with
    | token name => cases b <;> cases v <;> rfl
    | _ => cases b <;> rfl

/-- A node is reduced by what its children contribute, wherever these stand. -/
theorem combine_moved (k : NodeKind) (items : List Reduced) :
    Architecture.combine k (items.map (Reduced.moved f)) = Architecture.combine k items := by
  cases k with
  | layerType => exact combine_keyword_moved f (by simp) items
  | activationFn => exact combine_keyword_moved f (by simp) items
  | kernelInitializer => exact combine_keyword_moved f (by simp) items
  | layerParam => exact combine_param_moved f .hidden items
  | inputParam => exact combine_param_moved f .input items
  | outputParam => exact combine_param_moved f .output items
  | dilationList => rw [Architecture.combine, Architecture.combine, dilations_moved]
  | inputLayer => rw [Architecture.combine, Architecture.combine, params_moved]
  | outputLayer => rw [Architecture.combine, Architecture.combine, params_moved]
  | hiddenLayer =>
    cases items with
    | nil => rfl
    | cons r items =>
      cases r with
      | value v =>
        cases v with
        | text type =>
          rw [List.map_cons, Reduced.moved, Architecture.combine, Architecture.combine,
            params_moved]
          simp
        | _ => rfl
      | _ => rfl
  | ann =>
    have hfilter : (items.map (Reduced.moved f)).filter (!·.isToken) =
        (items.filter (!·.isToken)).map (Reduced.moved f) := by
      rw [List.filter_map]
      congr 1
      exact List.filter_congr fun r _ => congrArg (!·) (isToken_moved f r)
    rw [Architecture.combine, Architecture.combine, hfilter, assemble_moved]

/-- A node contributes no token. -/
theorem combine_ne_token (k : NodeKind) (items : List Reduced) (t : Token) :
    Architecture.combine k items ≠ .ok (.token t) := by
  unfold Architecture.combine
  repeat' split
  all_goals simp

theorem moved_of_combine {k : NodeKind} {items : List Reduced} {r : Reduced}
    (h : Architecture.combine k items = .ok r) : r.moved f = r := by
  cases r with
  | token t => exact absurd h (combine_ne_token k items t)
  | _ => rfl

mutual

/-- A moved tree is reduced to the same, where that is no token, or is at fault for the same. -/
theorem reduce_moved : ∀ t : Tree,
    (t.moved f).reduce = (t.reduce.map (Reduced.moved f)).mapError (InterpretError.moved f)
  | leaf t => by rw [moved_leaf, reduce_leaf, reduce_leaf, reduce_token_moved]
  | node k cs => by
    rw [moved_node, Tree.reduce, Tree.reduce, reduceAll_moved, firstTokenOfList?_moved]
    cases Tree.reduceAll cs with
    | error e => rfl
    | ok items =>
      dsimp only [Except.map, Except.mapError]
      rw [combine_moved]
      cases hr : Architecture.combine k items with
      | error w =>
        cases firstTokenOfList? cs <;> rfl
      | ok r =>
        dsimp only
        rw [moved_of_combine f hr]

theorem reduceAll_moved : ∀ ts : List Tree,
    Tree.reduceAll (ts.map (Tree.moved f)) =
      ((Tree.reduceAll ts).map (List.map (Reduced.moved f))).mapError (InterpretError.moved f)
  | [] => by rw [List.map_nil, Tree.reduceAll]; rfl
  | t :: ts => by
    rw [List.map_cons, Tree.reduceAll, Tree.reduceAll, reduce_moved, reduceAll_moved]
    cases t.reduce with
    | error e => rfl
    | ok r => cases Tree.reduceAll ts <;> rfl

end

theorem ofTree_moved (t : Tree) :
    Architecture.ofTree (t.moved f) =
      (Architecture.ofTree t).mapError (InterpretError.moved f) := by
  have hkind : (t.moved f).kind? = t.kind? := by cases t <;> simp [kind?]
  rw [Architecture.ofTree, Architecture.ofTree, reduce_moved, hkind, firstToken?_moved]
  cases t.reduce with
  | error e => rfl
  | ok r =>
    cases r with
    | architecture a => rfl
    | _ => cases t.firstToken? <;> rfl

/-- A moved tree has the same architecture. -/
theorem compile_moved (r : RuleTable) (t : Tree) (a : Architecture) :
    r.compile (t.moved f) = .ok a ↔ r.compile t = .ok a := by
  rw [compile_eq_ok_iff, compile_eq_ok_iff, validate_moved, List.map_eq_nil_iff, ofTree_moved]
  cases Architecture.ofTree t <;> simp [Except.mapError]

/-! ## Descriptions -/

theorem itemTrees_moved {items : List Tree} (h : ItemTrees items) :
    ItemTrees (items.map (Tree.moved f)) := by
  induction h with
  | close hbracket =>
    rw [List.map_singleton, moved_leaf]
    exact .close hbracket
  | item hcomma hnumber _ ih =>
    rw [List.map_cons, List.map_cons, moved_leaf, moved_leaf]
    exact .item hcomma hnumber ih

theorem valueTree_moved {s : ValueShape} {tree : Tree} (h : ValueTree s tree) :
    ValueTree s (tree.moved f) := by
  cases s with
  | number =>
    obtain ⟨t, ht, rfl⟩ := h
    exact ⟨t.moved f, ht, moved_leaf f t⟩
  | padding =>
    obtain ⟨t, ht, rfl⟩ := h
    exact ⟨t.moved f, ht, moved_leaf f t⟩
  | poolType =>
    obtain ⟨t, ht, rfl⟩ := h
    exact ⟨t.moved f, ht, moved_leaf f t⟩
  | activation =>
    obtain ⟨t, ht, rfl⟩ := h
    exact ⟨t.moved f, ht, by simp⟩
  | initializer =>
    obtain ⟨t, ht, rfl⟩ := h
    exact ⟨t.moved f, ht, by simp⟩
  | dilationList =>
    obtain ⟨bracket, first, items, hbracket, hfirst, hitems, rfl⟩ := h
    exact ⟨bracket.moved f, first.moved f, _, hbracket, hfirst, itemTrees_moved f hitems,
      by simp⟩

theorem paramTree_moved {b : Block} {tree : Tree} (h : ParamTree b tree) :
    ParamTree b (tree.moved f) := by
  obtain ⟨hname, hadmits, hequals, hvalue, hsemicolon⟩ := h
  rw [moved_node, List.map_cons, List.map_cons, List.map_cons, List.map_singleton, moved_leaf,
    moved_leaf, moved_leaf]
  exact .assignment hname hadmits hequals (valueTree_moved f hvalue) hsemicolon

theorem headTree_moved {b : Block} {tree : Tree} (h : HeadTree b tree) :
    HeadTree b (tree.moved f) := by
  cases b with
  | input =>
    obtain ⟨t, ht, rfl⟩ := h
    exact ⟨t.moved f, ht, moved_leaf f t⟩
  | hidden =>
    obtain ⟨t, ht, rfl⟩ := h
    exact ⟨t.moved f, ht, by simp⟩
  | output =>
    obtain ⟨t, ht, rfl⟩ := h
    exact ⟨t.moved f, ht, moved_leaf f t⟩

theorem blockTree_moved {b : Block} {tree : Tree} (h : BlockTree b tree) :
    BlockTree b (tree.moved f) := by
  obtain ⟨hhead, hlbrace, hparams, hrbrace⟩ := h
  rename_i head lbrace rbrace params
  have hmoved : ∀ p ∈ params.map (Tree.moved f), ParamTree b p := by
    intro p hp
    obtain ⟨q, hq, rfl⟩ := List.mem_map.1 hp
    exact paramTree_moved f (hparams q hq)
  have hbraces : BlockTree b (node (blockKind b) ([head.moved f, leaf (lbrace.moved f)] ++
      params.map (Tree.moved f) ++ [leaf (rbrace.moved f)])) :=
    .braces (headTree_moved f hhead) hlbrace hmoved hrbrace
  simpa using hbraces

/-- Moving leaves the shape of a description. -/
theorem descriptionTree_moved {tree : Tree} (h : DescriptionTree tree) :
    DescriptionTree (tree.moved f) := by
  obtain ⟨hword, hlbrace, hinput, hhidden, houtput, hrbrace⟩ := h
  rename_i word lbrace rbrace input output hidden
  have hmoved : ∀ t ∈ hidden.map (Tree.moved f), BlockTree .hidden t := by
    intro t ht
    obtain ⟨u, hu, rfl⟩ := List.mem_map.1 ht
    exact blockTree_moved f (hhidden u hu)
  have hnetwork : DescriptionTree (node .ann ([leaf (word.moved f), leaf (lbrace.moved f),
      input.moved f] ++ hidden.map (Tree.moved f) ++ [output.moved f, leaf (rbrace.moved f)])) :=
    .network hword hlbrace (blockTree_moved f hinput) hmoved (blockTree_moved f houtput) hrbrace
  simpa using hnetwork

/-! ## Texts with the same tokens -/

/-- A description is the only one with its tokens. -/
theorem eq_of_tokens {s t : Tree} (hs : DescriptionTree s) (ht : DescriptionTree t)
    (h : s.tokens = t.tokens) : s = t := by
  have hread : ∀ {u : Tree}, DescriptionTree u → u.tokens = t.tokens →
      Tree.ofTokens Position.start t.tokens = .ok u :=
    fun hu htokens => ofTokens_eq_ok_iff.2 ⟨hu, htokens⟩
  exact Except.ok.inj ((hread hs h).symm.trans (hread ht rfl))

/-- Moved to one place, tokens are what they are without places. -/
theorem map_moved_eq {ts us : List Token} (h : us.map unplaced = ts.map unplaced)
    (p : Position) :
    us.map (Token.moved fun _ => p) = ts.map (Token.moved fun _ => p) := by
  have hplace : (Token.moved fun _ => p) = fun t => ⟨(unplaced t).1, (unplaced t).2, p⟩ := rfl
  have hmap := congrArg (List.map fun u : Kind × String => (⟨u.1, u.2, p⟩ : Token)) h
  rwa [List.map_map, List.map_map] at hmap

variable {text other : String} {ts us : List Token}

/-- Of two texts with the same tokens, if one has a tree, the other has the same tree but for
places. -/
theorem exists_tree_of_unplaced (hts : Token.ofText text = .ok ts)
    (hus : Token.ofText other = .ok us) (h : us.map unplaced = ts.map unplaced) {tree : Tree}
    (htree : Tree.ofText text = .ok tree) :
    ∃ tree', Tree.ofText other = .ok tree' ∧
      tree'.moved (fun _ => Position.start) = tree.moved fun _ => Position.start := by
  obtain ⟨hshape, htokens⟩ := ofText_eq_ok_iff.1 htree
  obtain rfl := Except.ok.inj (htokens.symm.trans hts)
  have hkinds : us.map Token.kind = tree.tokens.map Token.kind := by
    have hmap := congrArg (List.map Prod.fst) h
    rwa [List.map_map, List.map_map] at hmap
  have hsentence := (spells_description tree.tokens).2 ⟨tree, hshape, rfl⟩
  rw [← hkinds] at hsentence
  obtain ⟨tree', hshape', rfl⟩ := (spells_description us).1 hsentence
  refine ⟨tree', ofText_eq_ok_iff.2 ⟨hshape', hus⟩, ?_⟩
  apply eq_of_tokens (descriptionTree_moved _ hshape') (descriptionTree_moved _ hshape)
  rw [tokens_moved, tokens_moved]
  exact map_moved_eq h Position.start

/-- Of two texts with the same tokens, what the one is compiled to, the other is. -/
theorem compileText_of_unplaced (hts : Token.ofText text = .ok ts)
    (hus : Token.ofText other = .ok us) (h : us.map unplaced = ts.map unplaced) {r : RuleTable}
    {a : Architecture} (ha : r.compileText text = .ok a) : r.compileText other = .ok a := by
  obtain ⟨tree, htree, ha⟩ := compileText_eq_ok_iff.1 ha
  obtain ⟨tree', htree', hmoved⟩ := exists_tree_of_unplaced hts hus h htree
  refine compileText_eq_ok_iff.2 ⟨tree', htree', ?_⟩
  rw [← compile_eq_ok_iff, ← compile_moved fun _ => Position.start, hmoved, compile_moved,
    compile_eq_ok_iff]
  exact ha

end Meaning

end NeuralArch
