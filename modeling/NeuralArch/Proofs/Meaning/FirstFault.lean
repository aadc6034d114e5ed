import NeuralArch.Proofs.Meaning.Existence

/-!
# Where reduction stops

Reduction visits the tokens of a tree from left to right, and stops at the first
that it cannot reduce.  On the tree of a text this is an integer that 64 bits do
not hold: a node whose tokens are all reduced is of the shape that its kind
wants, so no node is ever refused for its children.

* `FirstFault` — the error for the first token that is not representable.
* `blamesFirst_node` — if reduction stops at a node, it stops at a token below.
* `firstFault_of_ofTree` — the error on a description tree is the first fault.
-/

namespace NeuralArch.Meaning

open NeuralArch.Tree
open Token Syntax Lexing

/-- The error names the first of the tokens that is not representable. -/
def FirstFault (ts : List Token) (e : InterpretError) : Prop :=
  ∃ before t after, ts = before ++ t :: after ∧ (∀ u ∈ before, Representable u) ∧
    ¬ Representable t ∧ e = .badNumber t.value t.pos

theorem FirstFault.append_right {ts : List Token} {e : InterpretError} (h : FirstFault ts e)
    (us : List Token) : FirstFault (ts ++ us) e := by
  obtain ⟨before, t, after, rfl, hbefore, ht, he⟩ := h
  refine ⟨before, t, after ++ us, ?_, hbefore, ht, he⟩
  rw [List.append_assoc, List.cons_append]

theorem FirstFault.append_left {ts us : List Token} {e : InterpretError} (h : FirstFault ts e)
    (hus : ∀ u ∈ us, Representable u) : FirstFault (us ++ ts) e := by
  obtain ⟨before, t, after, rfl, hbefore, ht, he⟩ := h
  refine ⟨us ++ before, t, after, ?_, List.forall_mem_append.2 ⟨hus, hbefore⟩, ht, he⟩
  rw [List.append_assoc]

/-- Reduction of the tree fails for its first token that is not representable, if at all. -/
def BlamesFirst (tree : Tree) : Prop := ∀ e, tree.reduce = .error e → FirstFault tree.tokens e

/-! ## Tokens and nodes -/

theorem blamesFirst_leaf {t : Token} (hfits : ∀ u ∈ (leaf t).tokens, Fits u) :
    BlamesFirst (leaf t) := by
  intro e he
  rw [tokens] at hfits ⊢
  rw [reduce_leaf] at he
  unfold Token.reduce at he
  split at he
  · next hk =>
    have hfault : ¬ Representable t ∧ e = .badNumber t.value t.pos := by
      cases hread : Number.readInt64? t.value with
      | some i => simp [hread] at he
      | none =>
        simp only [hread, Except.error.injEq] at he
        exact ⟨fun h => by simpa [hread] using h hk, he.symm⟩
    exact ⟨[], t, [], rfl, by simp, hfault⟩
  · next hk =>
    -- The text of a float is always read.
    have hfit := hfits t (List.mem_singleton_self t)
    rw [Fits, hk] at hfit
    obtain ⟨x, hread⟩ := Option.isSome_iff_exists.1 (isSome_readFloat? (.inr hfit))
    simp [hread] at he
  · split at he <;> simp at he

theorem firstFault_reduceAll {cs : List Tree} (h : ∀ c ∈ cs, BlamesFirst c) {e : InterpretError}
    (he : Tree.reduceAll cs = .error e) : FirstFault (tokensOfList cs) e := by
  induction cs with
  | nil => simp [Tree.reduceAll] at he
  | cons c cs ih =>
    rw [List.forall_mem_cons] at h
    rw [Tree.reduceAll] at he
    rw [tokensOfList]
    cases hc : Tree.reduce c with
    | error e' =>
      simp only [hc, Except.error.injEq] at he
      exact (h.1 e (he ▸ hc)).append_right _
    | ok r =>
      have hsized : ∀ t ∈ c.tokens, Representable t := by
        intro t ht
        obtain ⟨r', hr'⟩ := reduce_tokens hc t ht
        exact representable_of_reduce hr'
      cases hcs : Tree.reduceAll cs with
      | error e' =>
        simp only [hc, hcs, Except.error.injEq] at he
        exact (ih h.2 (he ▸ hcs)).append_left hsized
      | ok rs => simp [hc, hcs] at he

/-- A node that is reduced once its tokens are fails only below. -/
theorem blamesFirst_node {k : NodeKind} {cs : List Tree} (hcs : ∀ c ∈ cs, BlamesFirst c)
    (hself : (∀ t ∈ (node k cs).tokens, Representable t) → ∃ r, (node k cs).reduce = .ok r) :
    BlamesFirst (node k cs) := by
  intro e he
  rw [tokens] at hself ⊢
  cases hall : Tree.reduceAll cs with
  | error e' =>
    rw [Tree.reduce, hall] at he
    obtain rfl := Except.error.inj he
    exact firstFault_reduceAll hcs hall
  | ok rs =>
    have hsized : ∀ t ∈ tokensOfList cs, Representable t := by
      intro t ht
      obtain ⟨r, hr⟩ := reduceAll_tokens hall t ht
      exact representable_of_reduce hr
    obtain ⟨r, hr⟩ := hself hsized
    simp [he] at hr

/-! ## The nodes of a description -/

theorem exists_leaf_of_mem_items {items : List Tree} (h : ItemTrees items) :
    ∀ tree ∈ items, ∃ t, tree = leaf t := by
  induction h with
  | close => simp
  | item _ _ _ ih =>
    rw [List.forall_mem_cons, List.forall_mem_cons]
    exact ⟨⟨_, rfl⟩, ⟨_, rfl⟩, ih⟩

/-- A node around tokens alone. -/
theorem blamesFirst_flat {k : NodeKind} {cs : List Tree} (hleaves : ∀ c ∈ cs, ∃ t, c = leaf t)
    (hfits : ∀ t ∈ (node k cs).tokens, Fits t)
    (hself : (∀ t ∈ (node k cs).tokens, Representable t) → ∃ r, (node k cs).reduce = .ok r) :
    BlamesFirst (node k cs) := by
  refine blamesFirst_node (fun c hc => ?_) hself
  obtain ⟨t, rfl⟩ := hleaves c hc
  exact blamesFirst_leaf (forall_tokens_node hfits _ hc)

theorem blamesFirst_value {s : ValueShape} {tree : Tree} (h : ValueTree s tree)
    (hfits : ∀ t ∈ tree.tokens, Fits t) : BlamesFirst tree := by
  have hself : (∀ t ∈ tree.tokens, Representable t) → ∃ r, tree.reduce = .ok r := by
    intro hsized
    obtain ⟨v, hv⟩ := exists_valueOf h hfits hsized
    exact ⟨_, (reduce_value_eq_ok_iff h).2 ⟨v, hv, rfl⟩⟩
  cases s with
  | number =>
    obtain ⟨t, -, rfl⟩ := h
    exact blamesFirst_leaf hfits
  | padding =>
    obtain ⟨t, -, rfl⟩ := h
    exact blamesFirst_leaf hfits
  | poolType =>
    obtain ⟨t, -, rfl⟩ := h
    exact blamesFirst_leaf hfits
  | activation =>
    obtain ⟨t, -, rfl⟩ := h
    exact blamesFirst_flat (by simp) hfits hself
  | initializer =>
    obtain ⟨t, -, rfl⟩ := h
    exact blamesFirst_flat (by simp) hfits hself
  | dilationList =>
    obtain ⟨bracket, first, items, -, -, hitems, rfl⟩ := h
    refine blamesFirst_flat ?_ hfits hself
    rw [List.forall_mem_cons, List.forall_mem_cons]
    exact ⟨⟨_, rfl⟩, ⟨_, rfl⟩, exists_leaf_of_mem_items hitems⟩

theorem blamesFirst_param {b : Block} {tree : Tree} (h : ParamTree b tree)
    (hfits : ∀ t ∈ tree.tokens, Fits t) : BlamesFirst tree := by
  have hself : (∀ t ∈ tree.tokens, Representable t) → ∃ r, tree.reduce = .ok r := by
    intro hsized
    obtain ⟨item, hitem⟩ := exists_paramOf h hfits hsized
    exact ⟨_, (reduce_param_eq_ok_iff h).2 ⟨item, hitem, rfl⟩⟩
  obtain ⟨-, -, -, hvalue, -⟩ := h
  have hparts := forall_tokens_node hfits
  simp only [List.forall_mem_cons] at hparts
  obtain ⟨hname, hequals, hvalueFits, hsemicolon, -⟩ := hparts
  refine blamesFirst_node ?_ hself
  simp only [List.forall_mem_cons]
  exact ⟨blamesFirst_leaf hname, blamesFirst_leaf hequals, blamesFirst_value hvalue hvalueFits,
    blamesFirst_leaf hsemicolon, by simp⟩

theorem blamesFirst_head {b : Block} {tree : Tree} (h : HeadTree b tree)
    (hfits : ∀ t ∈ tree.tokens, Fits t) : BlamesFirst tree := by
  cases b with
  | input =>
    obtain ⟨t, -, rfl⟩ := h
    exact blamesFirst_leaf hfits
  | output =>
    obtain ⟨t, -, rfl⟩ := h
    exact blamesFirst_leaf hfits
  | hidden =>
    obtain ⟨t, ht, rfl⟩ := h
    obtain ⟨word, hword⟩ := exists_keyword (k := t.kind) (by simp [ht])
    exact blamesFirst_flat (by simp) hfits fun _ => ⟨_, reduce_wrapped hword (.inl rfl)⟩

theorem exists_reduce_block {b : Block} {tree : Tree} (h : BlockTree b tree)
    (hfits : ∀ t ∈ tree.tokens, Fits t) (hsized : ∀ t ∈ tree.tokens, Representable t) :
    ∃ r, tree.reduce = .ok r := by
  cases b with
  | input =>
    obtain ⟨m, hm⟩ := exists_blockOf h hfits hsized
    exact ⟨_, (reduce_inputBlock_eq_ok_iff h).2 ⟨m, hm, rfl⟩⟩
  | hidden =>
    obtain ⟨layer, hlayer⟩ := exists_layerOf h hfits hsized
    exact ⟨_, (reduce_hiddenBlock_eq_ok_iff h).2 ⟨layer, hlayer, rfl⟩⟩
  | output =>
    obtain ⟨m, hm⟩ := exists_blockOf h hfits hsized
    exact ⟨_, (reduce_outputBlock_eq_ok_iff h).2 ⟨m, hm, rfl⟩⟩

theorem blamesFirst_block {b : Block} {tree : Tree} (h : BlockTree b tree)
    (hfits : ∀ t ∈ tree.tokens, Fits t) : BlamesFirst tree := by
  have hself := exists_reduce_block h hfits
  obtain ⟨hhead, -, hparams, -⟩ := h
  have hparts := forall_tokens_node hfits
  simp only [List.forall_mem_append, List.forall_mem_cons] at hparts
  obtain ⟨⟨⟨hheadFits, hlbrace, -⟩, hparamsFit⟩, hrbrace, -⟩ := hparts
  refine blamesFirst_node ?_ hself
  simp only [List.forall_mem_append, List.forall_mem_cons]
  refine ⟨⟨⟨blamesFirst_head hhead hheadFits, blamesFirst_leaf hlbrace, by simp⟩, ?_⟩,
    blamesFirst_leaf hrbrace, by simp⟩
  intro p hp
  exact blamesFirst_param (hparams p hp) (hparamsFit p hp)

theorem blamesFirst_description {tree : Tree} (h : DescriptionTree tree)
    (hfits : ∀ t ∈ tree.tokens, Fits t) : BlamesFirst tree := by
  have hself : (∀ t ∈ tree.tokens, Representable t) → ∃ r, tree.reduce = .ok r := by
    intro hsized
    obtain ⟨a, ha⟩ := (exists_architectureOf_iff h hfits).2 hsized
    exact ⟨_, (reduce_description_eq_ok_iff h).2 ⟨a, ha, rfl⟩⟩
  obtain ⟨-, -, hinput, hhidden, houtput, -⟩ := h
  have hparts := forall_tokens_node hfits
  simp only [List.forall_mem_append, List.forall_mem_cons] at hparts
  obtain ⟨⟨⟨hword, hlbrace, hinputFits, -⟩, hhiddenFit⟩, houtputFits, hrbrace, -⟩ := hparts
  refine blamesFirst_node ?_ hself
  simp only [List.forall_mem_append, List.forall_mem_cons]
  refine ⟨⟨⟨blamesFirst_leaf hword, blamesFirst_leaf hlbrace,
    blamesFirst_block hinput hinputFits, by simp⟩, ?_⟩,
    blamesFirst_block houtput houtputFits, blamesFirst_leaf hrbrace, by simp⟩
  intro l hl
  exact blamesFirst_block (hhidden l hl) (hhiddenFit l hl)

/-- A description tree has an architecture, or the first of its integers that 64 bits do not hold
is to blame. -/
theorem firstFault_of_ofTree {tree : Tree} (h : DescriptionTree tree)
    (hfits : ∀ t ∈ tree.tokens, Fits t) {e : InterpretError}
    (he : Architecture.ofTree tree = .error e) : FirstFault tree.tokens e := by
  apply blamesFirst_description h hfits
  rw [Architecture.ofTree] at he
  split at he
  · next e' hreduce =>
    obtain rfl := Except.error.inj he
    exact hreduce
  · simp at he
  · next r hno hreduce =>
    obtain ⟨a, -, rfl⟩ := (reduce_description_eq_ok_iff h).1 hreduce
    exact absurd rfl (hno a)

end NeuralArch.Meaning
