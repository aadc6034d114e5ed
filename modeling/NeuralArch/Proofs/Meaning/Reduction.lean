import NeuralArch.Architecture.OfTree
import NeuralArch.Proofs.Lexing.Number
import NeuralArch.Proofs.Syntax.Shape

/-!
# The meaning of a description tree

What a tree of the documented shape stands for, as a relation between trees
and architectures: a parameter assigns the value that its value token denotes,
a block collects its assignments, and of repeated names the last counts.

* `ValueOf`, `ParamOf`, `BlockOf`, `LayerOf`, `ArchitectureOf` — the relation,
  one for each kind of node.
* `ofTree_eq_ok_iff` — on description trees, reduction finds exactly this
  meaning.
-/

namespace NeuralArch.Meaning

open NeuralArch.Tree
open Token Syntax Lexing

/-! ## Meaning -/

/-- The integers behind the first item of a dilation list. -/
inductive ItemsOf : List Tree → List Int64 → Prop
  | close {bracket : Token} : ItemsOf [leaf bracket] []
  | item {comma number : Token} {items : List Tree} {i : Int64} {is : List Int64}
      (hnumber : Number.readInt64? number.value = some i) (hitems : ItemsOf items is) :
      ItemsOf (leaf comma :: leaf number :: items) (i :: is)

/-- The value that a tree behind an equals sign stands for. -/
inductive ValueOf : Tree → ParamValue → Prop
  | int {t : Token} {i : Int64} (hkind : t.kind = .int)
      (hread : Number.readInt64? t.value = some i) : ValueOf (leaf t) (.int i)
  | float {t : Token} {x : Float} (hkind : t.kind = .float)
      (hread : Number.readFloat? t.value = some x) : ValueOf (leaf t) (.float x)
  | word {t : Token} {word : String} (hword : t.kind.keyword? = some word) :
      ValueOf (leaf t) (.text word)
  | wrapped {k : NodeKind} {t : Token} {word : String} (hword : t.kind.keyword? = some word) :
      ValueOf (node k [leaf t]) (.text word)
  | list {bracket first : Token} {items : List Tree} {i : Int64} {is : List Int64}
      (hfirst : Number.readInt64? first.value = some i) (hitems : ItemsOf items is) :
      ValueOf (node .dilationList (leaf bracket :: leaf first :: items)) (.list (i :: is))

/-- The name and the value that a parameter's tree assigns. -/
inductive ParamOf : Tree → String × ParamValue → Prop
  | assignment {k : NodeKind} {name equals semicolon : Token} {p : ParamName} {value : Tree}
      {v : ParamValue} (hname : name.kind = .param p) (hvalue : ValueOf value v) :
      ParamOf (node k [leaf name, leaf equals, value, leaf semicolon]) (p.word, v)

/-- The parameters of a block. -/
inductive BlockOf : Tree → ParamMap → Prop
  | braces {k : NodeKind} {head : Tree} {lbrace rbrace : Token} {params : List Tree}
      {items : List (String × ParamValue)} (hparams : List.Forall₂ ParamOf params items) :
      BlockOf (node k ([head, leaf lbrace] ++ params ++ [leaf rbrace]))
        (Std.ExtTreeMap.ofList items)

/-- The layer of a hidden block. -/
inductive LayerOf : Tree → Layer → Prop
  | block {type : Token} {l : LayerType} {rest : List Tree} {params : ParamMap}
      (htype : type.kind = .layer l)
      (hparams : BlockOf (node .hiddenLayer (node .layerType [leaf type] :: rest)) params) :
      LayerOf (node .hiddenLayer (node .layerType [leaf type] :: rest)) ⟨l.word, params⟩

/-- The architecture of a description. -/
inductive ArchitectureOf : Tree → Architecture → Prop
  | network {word lbrace rbrace : Token} {input output : Tree} {hidden : List Tree}
      {a : Architecture} (hinput : BlockOf input a.input)
      (hhidden : List.Forall₂ LayerOf hidden a.hidden) (houtput : BlockOf output a.output) :
      ArchitectureOf (node .ann ([leaf word, leaf lbrace, input] ++ hidden ++
        [output, leaf rbrace])) a

/-! ## Reduction of tokens and lists -/

theorem reduce_int {t : Token} (h : t.kind = .int) {r : Reduced} :
    t.reduce = .ok r ↔ ∃ i, Number.readInt64? t.value = some i ∧ r = .value (.int i) := by
  rw [Token.reduce, h]
  dsimp only
  cases Number.readInt64? t.value <;> simp [eq_comm]

theorem reduce_float {t : Token} (h : t.kind = .float) {r : Reduced} :
    t.reduce = .ok r ↔ ∃ x, Number.readFloat? t.value = some x ∧ r = .value (.float x) := by
  rw [Token.reduce, h]
  dsimp only
  cases Number.readFloat? t.value <;> simp [eq_comm]

theorem reduce_keyword {t : Token} {word : String} (h : t.kind.keyword? = some word) :
    t.reduce = .ok (.value (.text word)) := by
  unfold Token.reduce
  split
  · next hk => simp [hk, Kind.keyword?] at h
  · next hk => simp [hk, Kind.keyword?] at h
  · rw [h]

theorem reduce_leaf (t : Token) : (leaf t).reduce = t.reduce := by rw [Tree.reduce]

/-- Tokens that are no numbers and stand for no word are passed on. -/
theorem reduce_leaf_mark {t : Token} {k : Kind} (h : t.kind = k) (hword : k.keyword? = none)
    (hnumber : k.isNumber = false) : (leaf t).reduce = .ok (.token t) := by
  subst h
  rw [reduce_leaf]
  unfold Token.reduce
  split
  · next hk => simp [hk, Kind.isNumber] at hnumber
  · next hk => simp [hk, Kind.isNumber] at hnumber
  · rw [hword]

/-- Several trees are reduced one by one. -/
theorem reduceAll_eq_ok_iff {ts : List Tree} {rs : List Reduced} :
    Tree.reduceAll ts = .ok rs ↔ List.Forall₂ (fun t r => Tree.reduce t = .ok r) ts rs := by
  induction ts generalizing rs with
  | nil => rw [Tree.reduceAll, List.forall₂_nil_left_iff, Except.ok.injEq, eq_comm]
  | cons t ts ih =>
    rw [Tree.reduceAll, List.forall₂_cons_left_iff]
    cases ht : Tree.reduce t with
    | error e => simp
    | ok r =>
      cases hts : Tree.reduceAll ts with
      | error e =>
        simp only [hts] at ih
        constructor
        · intro h
          exact absurd h (by simp)
        · rintro ⟨_, us, -, hus, rfl⟩
          exact absurd (ih.2 hus) (by simp)
      | ok us =>
        simp only [hts, Except.ok.injEq] at ih ⊢
        constructor
        · rintro rfl
          exact ⟨r, us, rfl, ih.1 rfl, rfl⟩
        · rintro ⟨_, vs, rfl, hvs, rfl⟩
          rw [ih.2 hvs]

/-- A node is reduced by its kind's rule, on what its children contribute. -/
theorem reduce_node_eq_ok_iff {k : NodeKind} {cs : List Tree} {r : Reduced} :
    (node k cs).reduce = .ok r ↔
      ∃ rs, List.Forall₂ (fun t r => Tree.reduce t = .ok r) cs rs ∧
        Architecture.combine k rs = .ok r := by
  rw [Tree.reduce]
  simp only [← reduceAll_eq_ok_iff]
  cases hcs : Tree.reduceAll cs with
  | error e => simp
  | ok rs =>
    dsimp only
    cases hk : Architecture.combine k rs with
    | error w => simp [hk]
    | ok r' => simp [hk]

/-! ## Values -/

theorem valueOf_int_iff {t : Token} (h : t.kind = .int) {v : ParamValue} :
    ValueOf (leaf t) v ↔ ∃ i, Number.readInt64? t.value = some i ∧ v = .int i := by
  constructor
  · rintro (⟨-, hread⟩ | ⟨hfloat, -⟩ | hword)
    · exact ⟨_, hread, rfl⟩
    · simp [h] at hfloat
    · simp [h, Kind.keyword?] at hword
  · rintro ⟨i, hread, rfl⟩
    exact .int h hread

theorem valueOf_float_iff {t : Token} (h : t.kind = .float) {v : ParamValue} :
    ValueOf (leaf t) v ↔ ∃ x, Number.readFloat? t.value = some x ∧ v = .float x := by
  constructor
  · rintro (⟨hint, -⟩ | ⟨-, hread⟩ | hword)
    · simp [h] at hint
    · exact ⟨_, hread, rfl⟩
    · simp [h, Kind.keyword?] at hword
  · rintro ⟨x, hread, rfl⟩
    exact .float h hread

theorem valueOf_word_iff {t : Token} {word : String} (h : t.kind.keyword? = some word)
    {v : ParamValue} : ValueOf (leaf t) v ↔ v = .text word := by
  constructor
  · rintro (⟨hint, -⟩ | ⟨hfloat, -⟩ | hword)
    · simp [hint, Kind.keyword?] at h
    · simp [hfloat, Kind.keyword?] at h
    · rw [hword, Option.some.injEq] at h
      rw [h]
  · rintro rfl
    exact .word h

theorem valueOf_wrapped_iff {k : NodeKind} {t : Token} {word : String}
    (h : t.kind.keyword? = some word) {v : ParamValue} :
    ValueOf (node k [leaf t]) v ↔ v = .text word := by
  constructor
  · rintro (_ | _ | _ | hword)
    rw [hword, Option.some.injEq] at h
    rw [h]
  · rintro rfl
    exact .wrapped h

theorem kind_of_isNumber {k : Kind} (h : k.isNumber = true) : k = .int ∨ k = .float := by
  cases k <;> simp_all [Kind.isNumber]

/-- A value of a class of words is one of the words that stand for themselves. -/
theorem exists_keyword {k : Kind}
    (h : (k.isActivation || k.isInitializer || k.isPadding || k.isPoolType ||
      k.layer?.isSome) = true) : ∃ word, k.keyword? = some word := by
  cases k <;> simp_all [Kind.isActivation, Kind.isInitializer, Kind.isPadding,
    Kind.isPoolType, Kind.layer?, Kind.keyword?]

theorem reduce_leaf_word {t : Token} {word : String} (h : t.kind.keyword? = some word)
    {r : Reduced} : (leaf t).reduce = .ok r ↔ ∃ v, ValueOf (leaf t) v ∧ r = .value v := by
  rw [reduce_leaf, reduce_keyword h, Except.ok.injEq]
  simp only [valueOf_word_iff h, exists_eq_left, eq_comm]

/-- A node around one word stands for the word. -/
theorem reduce_wrapped {k : NodeKind} {t : Token} {word : String}
    (h : t.kind.keyword? = some word)
    (hk : k = .layerType ∨ k = .activationFn ∨ k = .kernelInitializer) :
    (node k [leaf t]).reduce = .ok (.value (.text word)) := by
  refine reduce_node_eq_ok_iff.2 ⟨[.value (.text word)], ?_, ?_⟩
  · exact .cons (by rw [reduce_leaf, reduce_keyword h]) .nil
  · rcases hk with rfl | rfl | rfl <;> rfl

theorem reduce_wrapped_word {k : NodeKind} {t : Token} {word : String}
    (h : t.kind.keyword? = some word)
    (hk : k = .layerType ∨ k = .activationFn ∨ k = .kernelInitializer) {r : Reduced} :
    (node k [leaf t]).reduce = .ok r ↔ ∃ v, ValueOf (node k [leaf t]) v ∧ r = .value v := by
  rw [reduce_wrapped h hk, Except.ok.injEq]
  simp only [valueOf_wrapped_iff h, exists_eq_left, eq_comm]

theorem dilations_eq_ok_iff {items : List Tree} (h : ItemTrees items) {is : List Int64} :
    (∃ rs, List.Forall₂ (fun t r => Tree.reduce t = .ok r) items rs ∧
      Architecture.dilations rs = .ok is) ↔ ItemsOf items is := by
  induction h generalizing is with
  | @close bracket hbracket =>
    have hreduce : (leaf bracket).reduce = .ok (.token bracket) := reduce_leaf_mark hbracket rfl rfl
    constructor
    · rintro ⟨rs, hrs, his⟩
      obtain ⟨r, _, hr, hnil, rfl⟩ := List.forall₂_cons_left_iff.1 hrs
      obtain rfl := List.forall₂_nil_left_iff.1 hnil
      rw [hreduce, Except.ok.injEq] at hr
      subst hr
      obtain rfl := Except.ok.inj his
      exact .close
    · rintro ⟨⟩
      exact ⟨[.token bracket], .cons hreduce .nil, rfl⟩
  | @item comma number items hcomma hnumber _ ih =>
    have hreduce : (leaf comma).reduce = .ok (.token comma) := reduce_leaf_mark hcomma rfl rfl
    constructor
    · rintro ⟨rs, hrs, his⟩
      obtain ⟨_, _, hr, hrest, rfl⟩ := List.forall₂_cons_left_iff.1 hrs
      obtain ⟨_, us, hn, hus, rfl⟩ := List.forall₂_cons_left_iff.1 hrest
      rw [hreduce, Except.ok.injEq] at hr
      subst hr
      obtain ⟨i, hi, rfl⟩ := (reduce_int hnumber).1 (by rwa [reduce_leaf] at hn)
      rw [Architecture.dilations, Architecture.dilations] at his
      cases hds : Architecture.dilations us with
      | error w => simp [hds] at his
      | ok js =>
        simp only [hds, Except.ok.injEq] at his
        subst his
        exact .item hi (ih.1 ⟨us, hus, hds⟩)
    · rintro (_ | ⟨hi, hitems⟩)
      obtain ⟨us, hus, hds⟩ := ih.2 hitems
      refine ⟨_, .cons hreduce (.cons ((reduce_leaf _).trans
        ((reduce_int hnumber).2 ⟨_, hi, rfl⟩)) hus), ?_⟩
      rw [Architecture.dilations, Architecture.dilations, hds]

theorem reduce_dilationList {bracket first : Token} {items : List Tree}
    (hbracket : bracket.kind = .lsqb) (hfirst : first.kind = .int) (hitems : ItemTrees items)
    {r : Reduced} :
    (node .dilationList (leaf bracket :: leaf first :: items)).reduce = .ok r ↔
      ∃ v, ValueOf (node .dilationList (leaf bracket :: leaf first :: items)) v ∧
        r = .value v := by
  have hreduce : (leaf bracket).reduce = .ok (.token bracket) := reduce_leaf_mark hbracket rfl rfl
  rw [reduce_node_eq_ok_iff]
  constructor
  · rintro ⟨rs, hrs, hcombine⟩
    obtain ⟨_, _, hr, hrest, rfl⟩ := List.forall₂_cons_left_iff.1 hrs
    obtain ⟨_, us, hn, hus, rfl⟩ := List.forall₂_cons_left_iff.1 hrest
    rw [hreduce, Except.ok.injEq] at hr
    subst hr
    obtain ⟨i, hi, rfl⟩ := (reduce_int hfirst).1 (by rwa [reduce_leaf] at hn)
    rw [Architecture.combine, Architecture.dilations, Architecture.dilations] at hcombine
    cases hds : Architecture.dilations us with
    | error w => simp [hds] at hcombine
    | ok is =>
      simp only [hds, Except.ok.injEq] at hcombine
      exact ⟨_, .list hi ((dilations_eq_ok_iff hitems).1 ⟨us, hus, hds⟩), hcombine.symm⟩
  · rintro ⟨_, _ | _ | _ | _ | ⟨hi, his⟩, rfl⟩
    · obtain ⟨us, hus, hds⟩ := (dilations_eq_ok_iff hitems).2 his
      refine ⟨_, .cons hreduce (.cons ((reduce_leaf _).trans
        ((reduce_int hfirst).2 ⟨_, hi, rfl⟩)) hus), ?_⟩
      rw [Architecture.combine, Architecture.dilations, Architecture.dilations, hds]

/-- The tree of a value is reduced to the value it stands for. -/
theorem reduce_value_eq_ok_iff {s : ValueShape} {tree : Tree} (h : ValueTree s tree)
    {r : Reduced} : tree.reduce = .ok r ↔ ∃ v, ValueOf tree v ∧ r = .value v := by
  cases s with
  | number =>
    obtain ⟨t, ht, rfl⟩ := h
    rcases kind_of_isNumber ht with hk | hk
    · rw [reduce_leaf, reduce_int hk]
      simp only [valueOf_int_iff hk]
      constructor
      · rintro ⟨i, hi, rfl⟩
        exact ⟨_, ⟨i, hi, rfl⟩, rfl⟩
      · rintro ⟨_, ⟨i, hi, rfl⟩, rfl⟩
        exact ⟨i, hi, rfl⟩
    · rw [reduce_leaf, reduce_float hk]
      simp only [valueOf_float_iff hk]
      constructor
      · rintro ⟨x, hx, rfl⟩
        exact ⟨_, ⟨x, hx, rfl⟩, rfl⟩
      · rintro ⟨_, ⟨x, hx, rfl⟩, rfl⟩
        exact ⟨x, hx, rfl⟩
  | padding =>
    obtain ⟨t, ht, rfl⟩ := h
    obtain ⟨word, hword⟩ := exists_keyword (k := t.kind) (by simp [ht])
    exact reduce_leaf_word hword
  | poolType =>
    obtain ⟨t, ht, rfl⟩ := h
    obtain ⟨word, hword⟩ := exists_keyword (k := t.kind) (by simp [ht])
    exact reduce_leaf_word hword
  | activation =>
    obtain ⟨t, ht, rfl⟩ := h
    obtain ⟨word, hword⟩ := exists_keyword (k := t.kind) (by simp [ht])
    exact reduce_wrapped_word hword (by simp)
  | initializer =>
    obtain ⟨t, ht, rfl⟩ := h
    obtain ⟨word, hword⟩ := exists_keyword (k := t.kind) (by simp [ht])
    exact reduce_wrapped_word hword (by simp)
  | dilationList =>
    obtain ⟨bracket, first, items, hbracket, hfirst, hitems, rfl⟩ := h
    exact reduce_dilationList hbracket hfirst hitems

/-! ## Parameters -/

theorem paramOf_iff {k : NodeKind} {name equals semicolon : Token} {p : ParamName}
    {value : Tree} (hname : name.kind = .param p) {item : String × ParamValue} :
    ParamOf (node k [leaf name, leaf equals, value, leaf semicolon]) item ↔
      ∃ v, ValueOf value v ∧ item = (p.word, v) := by
  constructor
  · rintro ⟨hname', hvalue⟩
    rw [hname, Kind.param.injEq] at hname'
    subst hname'
    exact ⟨_, hvalue, rfl⟩
  · rintro ⟨v, hvalue, rfl⟩
    exact .assignment hname hvalue

theorem reduce_param_eq_ok_iff {b : Block} {tree : Tree} (h : ParamTree b tree) {r : Reduced} :
    tree.reduce = .ok r ↔ ∃ item, ParamOf tree item ∧ r = .param item.1 item.2 := by
  obtain ⟨hname, -, hequals, hvalue, hsemicolon⟩ := h
  rename_i name equals semicolon p value
  have hnameOk : (leaf name).reduce = .ok (.token name) := reduce_leaf_mark hname rfl rfl
  have hequalsOk : (leaf equals).reduce = .ok (.token equals) := reduce_leaf_mark hequals rfl rfl
  have hsemicolonOk : (leaf semicolon).reduce = .ok (.token semicolon) :=
    reduce_leaf_mark hsemicolon rfl rfl
  have hcombine (v : ParamValue) : Architecture.combine (paramKind b)
      [.token name, .token equals, .value v, .token semicolon] = .ok (.param p.word v) := by
    cases b <;> simp [paramKind, Architecture.combine, hname, Kind.param?]
  rw [reduce_node_eq_ok_iff]
  constructor
  · rintro ⟨rs, hrs, hr⟩
    obtain ⟨r₁, _, h₁, hrs₁, rfl⟩ := List.forall₂_cons_left_iff.1 hrs
    obtain ⟨r₂, _, h₂, hrs₂, rfl⟩ := List.forall₂_cons_left_iff.1 hrs₁
    obtain ⟨r₃, _, h₃, hrs₃, rfl⟩ := List.forall₂_cons_left_iff.1 hrs₂
    obtain ⟨r₄, _, h₄, hrs₄, rfl⟩ := List.forall₂_cons_left_iff.1 hrs₃
    obtain rfl := List.forall₂_nil_left_iff.1 hrs₄
    obtain rfl := Except.ok.inj (hnameOk.symm.trans h₁)
    obtain rfl := Except.ok.inj (hequalsOk.symm.trans h₂)
    obtain rfl := Except.ok.inj (hsemicolonOk.symm.trans h₄)
    obtain ⟨v, hv, rfl⟩ := (reduce_value_eq_ok_iff hvalue).1 h₃
    rw [hcombine, Except.ok.injEq] at hr
    exact ⟨_, .assignment hname hv, hr.symm⟩
  · rintro ⟨_, ⟨hname', hv⟩, rfl⟩
    rename_i v
    rw [hname, Kind.param.injEq] at hname'
    subst hname'
    refine ⟨_, .cons hnameOk (.cons hequalsOk (.cons ?_ (.cons hsemicolonOk .nil))), hcombine v⟩
    exact (reduce_value_eq_ok_iff hvalue).2 ⟨_, hv, rfl⟩

/-! ## Lists of parts -/

theorem forall₂_append_left_iff {α β : Type} {R : α → β → Prop} {xs ys : List α}
    {cs : List β} :
    List.Forall₂ R (xs ++ ys) cs ↔
      ∃ as bs, List.Forall₂ R xs as ∧ List.Forall₂ R ys bs ∧ cs = as ++ bs := by
  induction xs generalizing cs with
  | nil =>
    simp only [List.nil_append, List.forall₂_nil_left_iff]
    constructor
    · intro h
      exact ⟨[], cs, rfl, h, rfl⟩
    · rintro ⟨_, bs, rfl, h, rfl⟩
      exact h
  | cons x xs ih =>
    simp only [List.cons_append, List.forall₂_cons_left_iff, ih]
    constructor
    · rintro ⟨c, _, hc, ⟨as, bs, has, hbs, rfl⟩, rfl⟩
      exact ⟨c :: as, bs, ⟨c, as, hc, has, rfl⟩, hbs, rfl⟩
    · rintro ⟨_, bs, ⟨c, as, hc, has, rfl⟩, hbs, rfl⟩
      exact ⟨c, as ++ bs, hc, ⟨as, bs, has, hbs, rfl⟩, rfl⟩

theorem exists_of_forall₂ {α β : Type} {R : α → β → Prop} {as : List α} {bs : List β}
    (h : List.Forall₂ R as bs) {b : β} (hb : b ∈ bs) : ∃ a ∈ as, R a b := by
  induction h with
  | nil => simp at hb
  | cons hR _ ih =>
    rcases List.mem_cons.1 hb with rfl | hb
    · exact ⟨_, List.mem_cons_self .., hR⟩
    · obtain ⟨a, ha, hab⟩ := ih hb
      exact ⟨a, List.mem_cons_of_mem _ ha, hab⟩

/-- If one relation is another one followed by a function, so it is on lists. -/
theorem forall₂_iff_exists_map {α β γ : Type} {R : α → γ → Prop} {S : α → β → Prop}
    {f : β → γ} {as : List α} (h : ∀ a ∈ as, ∀ c, R a c ↔ ∃ b, S a b ∧ c = f b)
    {cs : List γ} : List.Forall₂ R as cs ↔ ∃ bs, List.Forall₂ S as bs ∧ cs = bs.map f := by
  induction as generalizing cs with
  | nil => simp only [List.forall₂_nil_left_iff, exists_eq_left, List.map_nil]
  | cons a as ih =>
    have ha := h a (List.mem_cons_self ..)
    have has := fun {cs} => @ih (fun a' h' => h a' (List.mem_cons_of_mem _ h')) cs
    simp only [List.forall₂_cons_left_iff, ha, has]
    constructor
    · rintro ⟨_, _, ⟨b, hb, rfl⟩, ⟨bs, hbs, rfl⟩, rfl⟩
      exact ⟨b :: bs, ⟨b, bs, hb, hbs, rfl⟩, rfl⟩
    · rintro ⟨_, ⟨b, bs, hb, hbs, rfl⟩, rfl⟩
      exact ⟨f b, bs.map f, ⟨b, hb, rfl⟩, ⟨bs, hbs, rfl⟩, rfl⟩

/-! ## Blocks -/

/-- Only parameters count among the contributions to a block. -/
theorem params_braces {front : List Reduced} (hfront : front.filterMap Reduced.param? = [])
    {lbrace rbrace : Token} (items : List (String × ParamValue)) :
    Reduced.params (front ++ [.token lbrace] ++ items.map (fun i => .param i.1 i.2) ++
      [.token rbrace]) = Std.ExtTreeMap.ofList items := by
  have hitems : (items.map fun i => Reduced.param i.1 i.2).filterMap Reduced.param? = items := by
    rw [List.filterMap_map]
    exact List.filterMap_some
  have hmark (t : Token) : [Reduced.token t].filterMap Reduced.param? = [] := rfl
  rw [Reduced.params, List.filterMap_append, List.filterMap_append, List.filterMap_append,
    hfront, hitems, hmark, hmark, List.append_nil, List.append_nil, List.nil_append]

/-- What the children of a block contribute. -/
theorem reduce_braces_iff {b : Block} {head : Tree} {lbrace rbrace : Token}
    {params : List Tree} {front : Reduced} (hhead : head.reduce = .ok front)
    (hlbrace : lbrace.kind = .lbrace) (hparams : ∀ p ∈ params, ParamTree b p)
    (hrbrace : rbrace.kind = .rbrace) {rs : List Reduced} :
    List.Forall₂ (fun t r => Tree.reduce t = .ok r)
        ([head, leaf lbrace] ++ params ++ [leaf rbrace]) rs ↔
      ∃ items, List.Forall₂ ParamOf params items ∧
        rs = [front] ++ [.token lbrace] ++ items.map (fun i => .param i.1 i.2) ++
          [.token rbrace] := by
  have hlbraceOk : (leaf lbrace).reduce = .ok (.token lbrace) := reduce_leaf_mark hlbrace rfl rfl
  have hrbraceOk : (leaf rbrace).reduce = .ok (.token rbrace) := reduce_leaf_mark hrbrace rfl rfl
  have hitems {rs : List Reduced} := @forall₂_iff_exists_map _ _ _ _ _ _ params
    (fun p hp _ => reduce_param_eq_ok_iff (hparams p hp)) rs
  constructor
  · intro h
    obtain ⟨_, _, hall, hlast, rfl⟩ := forall₂_append_left_iff.1 h
    obtain ⟨_, _, hfirst, hmid, rfl⟩ := forall₂_append_left_iff.1 hall
    obtain ⟨r₁, _, h₁, hrest, rfl⟩ := List.forall₂_cons_left_iff.1 hfirst
    obtain ⟨r₂, _, h₂, hnil, rfl⟩ := List.forall₂_cons_left_iff.1 hrest
    obtain rfl := List.forall₂_nil_left_iff.1 hnil
    obtain ⟨r₃, _, h₃, hnil, rfl⟩ := List.forall₂_cons_left_iff.1 hlast
    obtain rfl := List.forall₂_nil_left_iff.1 hnil
    obtain rfl := Except.ok.inj (hhead.symm.trans h₁)
    obtain rfl := Except.ok.inj (hlbraceOk.symm.trans h₂)
    obtain rfl := Except.ok.inj (hrbraceOk.symm.trans h₃)
    obtain ⟨items, hparamsOf, rfl⟩ := hitems.1 hmid
    exact ⟨items, hparamsOf, rfl⟩
  · rintro ⟨items, hparamsOf, rfl⟩
    refine forall₂_append_left_iff.2 ⟨_, _, ?_, .cons hrbraceOk .nil, rfl⟩
    refine forall₂_append_left_iff.2 ⟨_, _, ?_, hitems.2 ⟨items, hparamsOf, rfl⟩, rfl⟩
    exact .cons hhead (.cons hlbraceOk .nil)

theorem blockOf_braces_iff {k : NodeKind} {head : Tree} {lbrace rbrace : Token}
    {params : List Tree} {m : ParamMap} :
    BlockOf (node k ([head, leaf lbrace] ++ params ++ [leaf rbrace])) m ↔
      ∃ items, List.Forall₂ ParamOf params items ∧ m = Std.ExtTreeMap.ofList items := by
  constructor
  · intro h
    generalize htree : node k ([head, leaf lbrace] ++ params ++ [leaf rbrace]) = tree at h
    obtain ⟨hparams⟩ := h
    rename_i k' head' lbrace' rbrace' params' items
    obtain ⟨-, hcs⟩ := Tree.node.inj htree
    obtain ⟨hfront, -⟩ := List.append_inj' hcs rfl
    obtain ⟨-, rfl⟩ := List.append_inj hfront rfl
    exact ⟨items, hparams, rfl⟩
  · rintro ⟨items, hparams, rfl⟩
    exact .braces hparams

/-- A block that is headed by a mark contributes its parameters. -/
theorem reduce_endBlock_eq_ok_iff {b : Block} {tree : Tree} (h : BlockTree b tree)
    {make : ParamMap → Reduced}
    (hhead : ∀ head, HeadTree b head → ∃ word, head.reduce = .ok (.token word))
    (hcombine : ∀ rs, Architecture.combine (blockKind b) rs = .ok (make (Reduced.params rs)))
    {r : Reduced} : tree.reduce = .ok r ↔ ∃ m, BlockOf tree m ∧ r = make m := by
  obtain ⟨hfront, hlbrace, hparams, hrbrace⟩ := h
  obtain ⟨word, hword⟩ := hhead _ hfront
  rw [reduce_node_eq_ok_iff]
  simp only [reduce_braces_iff hword hlbrace hparams hrbrace, blockOf_braces_iff, hcombine]
  constructor
  · rintro ⟨_, ⟨items, hitems, rfl⟩, hr⟩
    rw [params_braces rfl, Except.ok.injEq] at hr
    exact ⟨_, ⟨items, hitems, rfl⟩, hr.symm⟩
  · rintro ⟨_, ⟨items, hitems, rfl⟩, rfl⟩
    exact ⟨_, ⟨items, hitems, rfl⟩, by rw [params_braces rfl]⟩

theorem reduce_inputBlock_eq_ok_iff {tree : Tree} (h : BlockTree .input tree) {r : Reduced} :
    tree.reduce = .ok r ↔ ∃ m, BlockOf tree m ∧ r = .input m := by
  refine reduce_endBlock_eq_ok_iff h ?_ fun _ => rfl
  rintro _ ⟨word, hword, rfl⟩
  exact ⟨word, reduce_leaf_mark hword rfl rfl⟩

theorem reduce_outputBlock_eq_ok_iff {tree : Tree} (h : BlockTree .output tree) {r : Reduced} :
    tree.reduce = .ok r ↔ ∃ m, BlockOf tree m ∧ r = .output m := by
  refine reduce_endBlock_eq_ok_iff h ?_ fun _ => rfl
  rintro _ ⟨word, hword, rfl⟩
  exact ⟨word, reduce_leaf_mark hword rfl rfl⟩

theorem exists_layer {k : Kind} (h : k.layer?.isSome = true) : ∃ l, k = .layer l := by
  cases k <;> simp_all [Kind.layer?]

theorem layerOf_iff {type : Token} {l : LayerType} (htype : type.kind = .layer l)
    {rest : List Tree} {layer : Layer} :
    LayerOf (node .hiddenLayer (node .layerType [leaf type] :: rest)) layer ↔
      ∃ m, BlockOf (node .hiddenLayer (node .layerType [leaf type] :: rest)) m ∧
        layer = ⟨l.word, m⟩ := by
  constructor
  · rintro ⟨htype', hm⟩
    rw [htype, Kind.layer.injEq] at htype'
    exact ⟨_, hm, by rw [htype']⟩
  · rintro ⟨m, hm, rfl⟩
    exact .block htype hm

theorem reduce_hiddenBlock_eq_ok_iff {tree : Tree} (h : BlockTree .hidden tree) {r : Reduced} :
    tree.reduce = .ok r ↔ ∃ layer, LayerOf tree layer ∧ r = .hidden layer := by
  obtain ⟨⟨type, htype, rfl⟩, hlbrace, hparams, hrbrace⟩ := h
  rename_i lbrace rbrace params
  obtain ⟨l, htype⟩ := exists_layer htype
  have hhead : (node .layerType [leaf type]).reduce = .ok (.value (.text l.word)) :=
    reduce_wrapped (by rw [htype]; rfl) (.inl rfl)
  have hcombine (items : List (String × ParamValue)) : Architecture.combine .hiddenLayer
      ([.value (.text l.word)] ++ [.token lbrace] ++
        items.map (fun i => .param i.1 i.2) ++ [.token rbrace])
      = .ok (.hidden ⟨l.word, Std.ExtTreeMap.ofList items⟩) := by
    have hparams := @params_braces [] rfl lbrace rbrace items
    rw [List.nil_append] at hparams
    rw [← hparams]
    rfl
  rw [blockKind, reduce_node_eq_ok_iff]
  simp only [reduce_braces_iff hhead hlbrace hparams hrbrace]
  have hlayer {layer : Layer} := @layerOf_iff type l htype
    (leaf lbrace :: (params ++ [leaf rbrace])) layer
  show (∃ rs, _ ∧ _) ↔ ∃ layer, LayerOf (node .hiddenLayer (node .layerType [leaf type] ::
    leaf lbrace :: (params ++ [leaf rbrace]))) layer ∧ _
  simp only [hlayer]
  constructor
  · rintro ⟨_, ⟨items, hitems, rfl⟩, hr⟩
    rw [hcombine, Except.ok.injEq] at hr
    exact ⟨_, ⟨_, .braces hitems, rfl⟩, hr.symm⟩
  · rintro ⟨_, ⟨m, hm, rfl⟩, rfl⟩
    obtain ⟨items, hitems, rfl⟩ := blockOf_braces_iff.1 hm
    exact ⟨_, ⟨items, hitems, rfl⟩, hcombine items⟩

/-! ## Descriptions -/

theorem hiddenAndOutput_eq_ok (layers : List Layer) (output : ParamMap) :
    Architecture.hiddenAndOutput (layers.map .hidden ++ [.output output])
      = .ok (layers, output) := by
  induction layers with
  | nil => rfl
  | cons l layers ih =>
    rw [List.map_cons, List.cons_append, Architecture.hiddenAndOutput, ih]

theorem eq_of_hiddenAndOutput {items : List Reduced} {layers : List Layer} {output : ParamMap}
    (h : Architecture.hiddenAndOutput items = .ok (layers, output)) :
    items = layers.map .hidden ++ [.output output] := by
  fun_induction Architecture.hiddenAndOutput items generalizing layers with
  | case1 => cases h
  | case2 l items ls o hok ih =>
    obtain ⟨rfl, rfl⟩ := Prod.mk.inj (Except.ok.inj h)
    rw [ih hok, List.map_cons, List.cons_append]
  | case3 => cases h
  | case4 params =>
    obtain ⟨rfl, rfl⟩ := Prod.mk.inj (Except.ok.inj h)
    rfl
  | case5 => cases h

/-- Marks are passed over, and the rest is put together in order. -/
theorem combine_ann (word lbrace rbrace : Token) (a : Architecture) :
    Architecture.combine .ann ([.token word, .token lbrace, .input a.input] ++
      a.hidden.map .hidden ++ [.output a.output, .token rbrace]) = .ok (.architecture a) := by
  have hlayers : (a.hidden.map Reduced.hidden).filter (fun r => !r.isToken) =
      a.hidden.map Reduced.hidden := by
    rw [List.filter_eq_self]
    intro r hr
    obtain ⟨l, -, rfl⟩ := List.mem_map.1 hr
    rfl
  have hfilter : ([Reduced.token word, .token lbrace, .input a.input] ++
      a.hidden.map Reduced.hidden ++ [Reduced.output a.output, .token rbrace]).filter
        (fun r => !r.isToken) =
      Reduced.input a.input :: (a.hidden.map Reduced.hidden ++ [Reduced.output a.output]) := by
    rw [List.filter_append, List.filter_append, hlayers]
    rfl
  rw [Architecture.combine, hfilter, Architecture.assemble, hiddenAndOutput_eq_ok]

theorem architectureOf_iff {word lbrace rbrace : Token} {input output : Tree}
    {hidden : List Tree} {a : Architecture} :
    ArchitectureOf (node .ann ([leaf word, leaf lbrace, input] ++ hidden ++
        [output, leaf rbrace])) a ↔
      BlockOf input a.input ∧ List.Forall₂ LayerOf hidden a.hidden ∧
        BlockOf output a.output := by
  constructor
  · intro h
    generalize htree : node .ann ([leaf word, leaf lbrace, input] ++ hidden ++
      [output, leaf rbrace]) = tree at h
    obtain ⟨hinput, hhidden, houtput⟩ := h
    obtain ⟨-, hcs⟩ := Tree.node.inj htree
    obtain ⟨hfront, hback⟩ := List.append_inj' hcs rfl
    obtain ⟨hfirst, rfl⟩ := List.append_inj hfront rfl
    simp only [List.cons.injEq] at hfirst hback
    rw [hfirst.2.2.1, hback.1]
    exact ⟨hinput, hhidden, houtput⟩
  · rintro ⟨hinput, hhidden, houtput⟩
    exact .network hinput hhidden houtput

/-- The root of a description is reduced to what it stands for. -/
theorem reduce_description_eq_ok_iff {tree : Tree} (h : DescriptionTree tree) {r : Reduced} :
    tree.reduce = .ok r ↔ ∃ a, ArchitectureOf tree a ∧ r = .architecture a := by
  obtain ⟨hword, hlbrace, hinput, hhidden, houtput, hrbrace⟩ := h
  rename_i word lbrace rbrace input output hidden
  have hwordOk : (leaf word).reduce = .ok (.token word) := reduce_leaf_mark hword rfl rfl
  have hlbraceOk : (leaf lbrace).reduce = .ok (.token lbrace) := reduce_leaf_mark hlbrace rfl rfl
  have hrbraceOk : (leaf rbrace).reduce = .ok (.token rbrace) := reduce_leaf_mark hrbrace rfl rfl
  have hlayers {rs : List Reduced} := @forall₂_iff_exists_map _ _ _ _ _ _ hidden
    (fun t ht _ => reduce_hiddenBlock_eq_ok_iff (hhidden t ht)) rs
  rw [reduce_node_eq_ok_iff]
  simp only [architectureOf_iff]
  constructor
  · rintro ⟨rs, hrs, hr⟩
    obtain ⟨_, _, hall, hlast, rfl⟩ := forall₂_append_left_iff.1 hrs
    obtain ⟨_, _, hfirst, hmid, rfl⟩ := forall₂_append_left_iff.1 hall
    obtain ⟨r₁, _, h₁, hfirst₁, rfl⟩ := List.forall₂_cons_left_iff.1 hfirst
    obtain ⟨r₂, _, h₂, hfirst₂, rfl⟩ := List.forall₂_cons_left_iff.1 hfirst₁
    obtain ⟨r₃, _, h₃, hfirst₃, rfl⟩ := List.forall₂_cons_left_iff.1 hfirst₂
    obtain rfl := List.forall₂_nil_left_iff.1 hfirst₃
    obtain ⟨r₄, _, h₄, hlast₁, rfl⟩ := List.forall₂_cons_left_iff.1 hlast
    obtain ⟨r₅, _, h₅, hlast₂, rfl⟩ := List.forall₂_cons_left_iff.1 hlast₁
    obtain rfl := List.forall₂_nil_left_iff.1 hlast₂
    obtain rfl := Except.ok.inj (hwordOk.symm.trans h₁)
    obtain rfl := Except.ok.inj (hlbraceOk.symm.trans h₂)
    obtain rfl := Except.ok.inj (hrbraceOk.symm.trans h₅)
    obtain ⟨i, hi, rfl⟩ := (reduce_inputBlock_eq_ok_iff hinput).1 h₃
    obtain ⟨o, ho, rfl⟩ := (reduce_outputBlock_eq_ok_iff houtput).1 h₄
    obtain ⟨layers, hls, rfl⟩ := hlayers.1 hmid
    have ha := combine_ann word lbrace rbrace ⟨i, layers, o⟩
    rw [ha, Except.ok.injEq] at hr
    exact ⟨⟨i, layers, o⟩, ⟨hi, hls, ho⟩, hr.symm⟩
  · rintro ⟨a, ⟨hi, hls, ho⟩, rfl⟩
    refine ⟨_, ?_, combine_ann word lbrace rbrace a⟩
    refine forall₂_append_left_iff.2 ⟨_, _, ?_, .cons ?_ (.cons hrbraceOk .nil), rfl⟩
    · refine forall₂_append_left_iff.2 ⟨_, _, ?_, hlayers.2 ⟨_, hls, rfl⟩, rfl⟩
      refine .cons hwordOk (.cons hlbraceOk (.cons ?_ .nil))
      exact (reduce_inputBlock_eq_ok_iff hinput).2 ⟨_, hi, rfl⟩
    · exact (reduce_outputBlock_eq_ok_iff houtput).2 ⟨_, ho, rfl⟩

/-- A description tree has the architecture that it stands for, and no other. -/
theorem ofTree_eq_ok_iff {tree : Tree} (h : DescriptionTree tree) {a : Architecture} :
    Architecture.ofTree tree = .ok a ↔ ArchitectureOf tree a := by
  rw [Architecture.ofTree]
  have hreduce := fun {r} => reduce_description_eq_ok_iff (r := r) h
  constructor
  · intro hok
    split at hok
    · simp at hok
    · next b hb =>
      obtain ⟨c, hc, heq⟩ := hreduce.1 hb
      rw [Reduced.architecture.injEq] at heq
      rw [Except.ok.injEq] at hok
      rwa [← hok, heq]
    · simp at hok
  · intro ha
    rw [hreduce.2 ⟨a, ha, rfl⟩]

end NeuralArch.Meaning
