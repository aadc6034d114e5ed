import NeuralArch.Proofs.Meaning.Reduction

/-!
# Which trees have a meaning

The one thing that keeps a description tree from having an architecture is an
integer that 64 bits do not hold, wherever it stands: as a value, or as an item
of a dilation list.  Every other token of a text denotes what its kind says.

* `Representable` — the condition on a token.
* `exists_architectureOf_iff` — a description tree whose tokens come from a text
  has an architecture exactly when all its tokens are representable.
-/

namespace NeuralArch.Meaning

open NeuralArch.Tree
open Token Syntax Lexing

/-- 64 bits hold the token, if it is an integer. -/
def Representable (t : Token) : Prop :=
  t.kind = .int → (Number.readInt64? t.value).isSome = true

/-! ## Tokens of parts -/

theorem mem_tokensOfList_iff {t : Token} {ts : List Tree} :
    t ∈ tokensOfList ts ↔ ∃ tree ∈ ts, t ∈ tree.tokens := by
  induction ts with
  | nil => simp [tokensOfList]
  | cons tree ts ih => simp [tokensOfList, ih]

theorem mem_tokens_node_iff {t : Token} {k : NodeKind} {cs : List Tree} :
    t ∈ (node k cs).tokens ↔ ∃ c ∈ cs, t ∈ c.tokens := by
  rw [tokens, mem_tokensOfList_iff]

/-- What holds of the tokens of a tree holds of those of its children. -/
theorem forall_tokens_node {p : Token → Prop} {k : NodeKind} {cs : List Tree}
    (h : ∀ t ∈ (node k cs).tokens, p t) : ∀ c ∈ cs, ∀ t ∈ c.tokens, p t :=
  fun c hc t ht => h t (mem_tokens_node_iff.2 ⟨c, hc, ht⟩)

/-! ## What reduction asks of tokens -/

mutual

/-- A tree is reduced only if all its tokens are. -/
theorem reduce_tokens : ∀ {tree : Tree} {r : Reduced}, tree.reduce = .ok r →
    ∀ t ∈ tree.tokens, ∃ r, t.reduce = .ok r
  | leaf u, r, h => by
    intro t ht
    rw [tokens, List.mem_singleton] at ht
    subst ht
    exact ⟨r, by rwa [reduce_leaf] at h⟩
  | node k cs, r, h => by
    obtain ⟨rs, hrs, -⟩ := reduce_node_eq_ok_iff.1 h
    rw [tokens]
    exact reduceAll_tokens (reduceAll_eq_ok_iff.2 hrs)

theorem reduceAll_tokens : ∀ {ts : List Tree} {rs : List Reduced},
    Tree.reduceAll ts = .ok rs → ∀ t ∈ tokensOfList ts, ∃ r, t.reduce = .ok r
  | [], _, _ => by simp [tokensOfList]
  | tree :: ts, rs, h => by
    obtain ⟨r, rs', hr, hrs, rfl⟩ := List.forall₂_cons_left_iff.1 (reduceAll_eq_ok_iff.1 h)
    intro t ht
    rw [tokensOfList, List.mem_append] at ht
    rcases ht with ht | ht
    · exact reduce_tokens hr t ht
    · exact reduceAll_tokens (reduceAll_eq_ok_iff.2 hrs) t ht

end

theorem representable_of_reduce {t : Token} {r : Reduced} (h : t.reduce = .ok r) :
    Representable t := by
  intro hk
  obtain ⟨i, hi, -⟩ := (reduce_int hk).1 h
  rw [hi]
  rfl

/-! ## Every part has a meaning -/

theorem exists_forall₂ {α β : Type} {R : α → β → Prop} {as : List α}
    (h : ∀ a ∈ as, ∃ b, R a b) : ∃ bs, List.Forall₂ R as bs := by
  induction as with
  | nil => exact ⟨[], .nil⟩
  | cons a as ih =>
    obtain ⟨b, hb⟩ := h a (List.mem_cons_self ..)
    obtain ⟨bs, hbs⟩ := ih fun a' ha' => h a' (List.mem_cons_of_mem _ ha')
    exact ⟨b :: bs, .cons hb hbs⟩

theorem exists_readInt64? {t : Token} (hk : t.kind = .int) (h : Representable t) :
    ∃ i, Number.readInt64? t.value = some i :=
  Option.isSome_iff_exists.1 (h hk)

theorem exists_itemsOf {items : List Tree} (h : ItemTrees items)
    (hsized : ∀ t ∈ tokensOfList items, Representable t) : ∃ is, ItemsOf items is := by
  induction h with
  | close => exact ⟨[], .close⟩
  | item hcomma hnumber _ ih =>
    simp only [tokensOfList, tokens, List.singleton_append, List.forall_mem_cons] at hsized
    obtain ⟨-, hfirst, hrest⟩ := hsized
    obtain ⟨i, hi⟩ := exists_readInt64? hnumber hfirst
    obtain ⟨is, his⟩ := ih hrest
    exact ⟨i :: is, .item hi his⟩

theorem exists_valueOf {s : ValueShape} {tree : Tree} (h : ValueTree s tree)
    (hfits : ∀ t ∈ tree.tokens, Fits t) (hsized : ∀ t ∈ tree.tokens, Representable t) :
    ∃ v, ValueOf tree v := by
  cases s with
  | number =>
    obtain ⟨t, ht, rfl⟩ := h
    have hfit := hfits t (List.mem_singleton_self t)
    rcases kind_of_isNumber ht with hk | hk
    · obtain ⟨i, hi⟩ := exists_readInt64? hk (hsized t (List.mem_singleton_self t))
      exact ⟨_, .int hk hi⟩
    · rw [Fits, hk] at hfit
      obtain ⟨x, hx⟩ := Option.isSome_iff_exists.1 (isSome_readFloat? (.inr hfit))
      exact ⟨_, .float hk hx⟩
  | padding =>
    obtain ⟨t, ht, rfl⟩ := h
    obtain ⟨word, hword⟩ := exists_keyword (k := t.kind) (by simp [ht])
    exact ⟨_, .word hword⟩
  | poolType =>
    obtain ⟨t, ht, rfl⟩ := h
    obtain ⟨word, hword⟩ := exists_keyword (k := t.kind) (by simp [ht])
    exact ⟨_, .word hword⟩
  | activation =>
    obtain ⟨t, ht, rfl⟩ := h
    obtain ⟨word, hword⟩ := exists_keyword (k := t.kind) (by simp [ht])
    exact ⟨_, .wrapped hword⟩
  | initializer =>
    obtain ⟨t, ht, rfl⟩ := h
    obtain ⟨word, hword⟩ := exists_keyword (k := t.kind) (by simp [ht])
    exact ⟨_, .wrapped hword⟩
  | dilationList =>
    obtain ⟨bracket, first, items, -, hfirst, hitems, rfl⟩ := h
    simp only [tokens, tokensOfList, List.singleton_append, List.forall_mem_cons] at hsized
    obtain ⟨i, hi⟩ := exists_readInt64? hfirst hsized.2.1
    obtain ⟨is, his⟩ := exists_itemsOf hitems hsized.2.2
    exact ⟨_, .list hi his⟩

theorem exists_paramOf {b : Block} {tree : Tree} (h : ParamTree b tree)
    (hfits : ∀ t ∈ tree.tokens, Fits t) (hsized : ∀ t ∈ tree.tokens, Representable t) :
    ∃ item, ParamOf tree item := by
  obtain ⟨hname, -, -, hvalue, -⟩ := h
  rename_i name equals semicolon p value
  have hmem : value ∈ [leaf name, leaf equals, value, leaf semicolon] := by simp
  obtain ⟨v, hv⟩ := exists_valueOf hvalue (forall_tokens_node hfits value hmem)
    (forall_tokens_node hsized value hmem)
  exact ⟨_, .assignment hname hv⟩

theorem exists_blockOf {b : Block} {tree : Tree} (h : BlockTree b tree)
    (hfits : ∀ t ∈ tree.tokens, Fits t) (hsized : ∀ t ∈ tree.tokens, Representable t) :
    ∃ m, BlockOf tree m := by
  obtain ⟨-, -, hparams, -⟩ := h
  rename_i head lbrace rbrace params
  have hitem : ∀ p ∈ params, ∃ item, ParamOf p item := by
    intro p hp
    have hmem : p ∈ [head, leaf lbrace] ++ params ++ [leaf rbrace] := by simp [hp]
    exact exists_paramOf (hparams p hp) (forall_tokens_node hfits p hmem)
      (forall_tokens_node hsized p hmem)
  obtain ⟨items, hitems⟩ := exists_forall₂ hitem
  exact ⟨_, .braces hitems⟩

theorem exists_layerOf {tree : Tree} (h : BlockTree .hidden tree)
    (hfits : ∀ t ∈ tree.tokens, Fits t) (hsized : ∀ t ∈ tree.tokens, Representable t) :
    ∃ layer, LayerOf tree layer := by
  obtain ⟨m, hm⟩ := exists_blockOf h hfits hsized
  obtain ⟨⟨type, htype, rfl⟩, -, -, -⟩ := h
  obtain ⟨l, htype⟩ := exists_layer htype
  exact ⟨_, .block htype hm⟩

/-- Only integers that 64 bits do not hold keep a tree from its architecture. -/
theorem exists_architectureOf_iff {tree : Tree} (h : DescriptionTree tree)
    (hfits : ∀ t ∈ tree.tokens, Fits t) :
    (∃ a, ArchitectureOf tree a) ↔ ∀ t ∈ tree.tokens, Representable t := by
  constructor
  · rintro ⟨a, ha⟩ t ht
    have hreduce := (reduce_description_eq_ok_iff h).2 ⟨a, ha, rfl⟩
    obtain ⟨r, hr⟩ := reduce_tokens hreduce t ht
    exact representable_of_reduce hr
  · intro hsized
    obtain ⟨-, -, hinput, hhidden, houtput, -⟩ := h
    rename_i word lbrace rbrace input output hidden
    have hfit := forall_tokens_node hfits
    have hsize := forall_tokens_node hsized
    obtain ⟨i, hi⟩ := exists_blockOf hinput (hfit input (by simp)) (hsize input (by simp))
    obtain ⟨o, ho⟩ := exists_blockOf houtput (hfit output (by simp)) (hsize output (by simp))
    have hlayer : ∀ t ∈ hidden, ∃ layer, LayerOf t layer := fun t ht =>
      exists_layerOf (hhidden t ht) (hfit t (by simp [ht])) (hsize t (by simp [ht]))
    obtain ⟨layers, hlayers⟩ := exists_forall₂ hlayer
    exact ⟨⟨i, layers, o⟩, .network hi hlayers ho⟩

end NeuralArch.Meaning
