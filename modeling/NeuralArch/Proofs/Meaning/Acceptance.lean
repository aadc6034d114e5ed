import NeuralArch.Proofs.Meaning.Classes

/-!
# Reduction of arbitrary trees

A tree need not have been read from text.  Reduction is one walk over its
subtrees, every child before its parent, and it stops at the first token or
node that breaks its own rule; so the walk decides both whether there is an
architecture and which of several faults is reported.

* `postorder` — the way of the walk.
* `FirstBreach` — the first tree on a way that breaks its rule.
* `reduce_cases` — one walk, with its two ways to end.
* `ofTree_node` — the architecture, or the error, of any tree.
-/

namespace NeuralArch.Meaning

open NeuralArch.Tree
open Token Syntax

/-! ## The way -/

mutual

/-- The subtrees of a tree, itself included, every child before its parent. -/
def postorder : Tree → List Tree
  | leaf t => [leaf t]
  | node kind cs => postorderOfList cs ++ [node kind cs]

/-- The subtrees of several trees, from left to right. -/
def postorderOfList : List Tree → List Tree
  | [] => []
  | t :: ts => postorder t ++ postorderOfList ts

end

/-- The first of some trees that breaks its rule. -/
def FirstBreach (ts : List Tree) (t : Tree) : Prop :=
  ∃ before after, ts = before ++ t :: after ∧ (∀ u ∈ before, Obeys u) ∧ ¬ Obeys t

theorem FirstBreach.append_right {ts : List Tree} {t : Tree} (h : FirstBreach ts t)
    (us : List Tree) : FirstBreach (ts ++ us) t := by
  obtain ⟨before, after, rfl, hbefore, ht⟩ := h
  exact ⟨before, after ++ us, by rw [List.append_assoc, List.cons_append], hbefore, ht⟩

theorem FirstBreach.append_left {ts us : List Tree} {t : Tree} (h : FirstBreach ts t)
    (hus : ∀ u ∈ us, Obeys u) : FirstBreach (us ++ ts) t := by
  obtain ⟨before, after, rfl, hbefore, ht⟩ := h
  exact ⟨us ++ before, after, by rw [List.append_assoc], List.forall_mem_append.2 ⟨hus, hbefore⟩,
    ht⟩

theorem FirstBreach.not_forall {ts : List Tree} {t : Tree} (h : FirstBreach ts t) :
    ¬ ∀ u ∈ ts, Obeys u := by
  obtain ⟨before, after, rfl, -, ht⟩ := h
  exact fun hall => ht (hall t (List.mem_append_right _ List.mem_cons_self))

theorem FirstBreach.unique {ts : List Tree} {t u : Tree} (ht : FirstBreach ts t)
    (hu : FirstBreach ts u) : t = u := by
  classical
  have hfind {t : Tree} (h : FirstBreach ts t) :
      ts.find? (fun u => decide ¬ Obeys u) = some t := by
    obtain ⟨before, after, rfl, hbefore, hbreach⟩ := h
    exact List.find?_eq_some_iff_append.2 ⟨by simpa using hbreach, before, after, rfl,
      by simpa using hbefore⟩
  exact Option.some.inj ((hfind ht).symm.trans (hfind hu))

/-! ## The walk -/

/-- How a walk ends: all trees on its way obey their rules and there is a good result, or the
error is that of the first which does not. -/
def WalkEnds {α : Type} (way : List Tree) (result : Except InterpretError α) (good : α → Prop) :
    Prop :=
  ((∀ t ∈ way, Obeys t) ∧ ∃ a, result = .ok a ∧ good a) ∨
    ∃ t, FirstBreach way t ∧ result = .error (fault t)

/-- A number reads, or is the fault; other tokens always contribute. -/
theorem reduce_leaf_cases (t : Token) : WalkEnds [leaf t] (leaf t).reduce (Contributes (leaf t)) := by
  have hbreach : ¬ Obeys (leaf t) → FirstBreach [leaf t] (leaf t) := fun h =>
    ⟨[], [], rfl, nofun, h⟩
  have hobeys : Obeys (leaf t) → ∀ u ∈ [leaf t], Obeys u := fun h u hu => by
    rwa [List.mem_singleton.1 hu]
  rw [reduce_leaf]
  by_cases hint : t.kind = .int
  · cases hread : Number.readInt64? t.value with
    | some i =>
      refine .inl ⟨hobeys ⟨fun _ => by rw [hread]; rfl, fun hfloat => ?_⟩, .value (.int i), ?_,
        .int hint⟩
      · exact absurd (hint.symm.trans hfloat) (by decide)
      · exact (reduce_int hint).2 ⟨i, hread, rfl⟩
    | none =>
      refine .inr ⟨leaf t, hbreach fun h => by simpa [hread] using h.1 hint, ?_⟩
      simp [Token.reduce, hint, hread, fault]
  by_cases hfloat : t.kind = .float
  · cases hread : Number.readFloat? t.value with
    | some x =>
      refine .inl ⟨hobeys ⟨fun h => absurd h hint, fun _ => by rw [hread]; rfl⟩,
        .value (.float x), ?_, .float hfloat⟩
      exact (reduce_float hfloat).2 ⟨x, hread, rfl⟩
    | none =>
      refine .inr ⟨leaf t, hbreach fun h => by simpa [hread] using h.2 hfloat, ?_⟩
      simp [Token.reduce, hfloat, hread, fault]
  refine .inl ⟨hobeys ⟨fun h => absurd h hint, fun h => absurd h hfloat⟩, ?_⟩
  cases hword : t.kind.keyword? with
  | some word => exact ⟨_, reduce_keyword hword, .keyword hword⟩
  | none =>
    have hnumber : t.kind.isNumber = false := by
      rw [Bool.eq_false_iff]
      exact fun h => (kind_of_isNumber h).elim hint hfloat
    refine ⟨_, (reduce_leaf t).symm.trans (reduce_leaf_mark rfl hword hnumber), .mark ?_⟩
    rw [isMark, hnumber, hword]
    rfl

mutual

/-- A tree is reduced by a walk over its subtrees in postorder. -/
theorem reduce_cases : ∀ t : Tree, WalkEnds (postorder t) t.reduce (Contributes t)
  | leaf t => reduce_leaf_cases t
  | node kind cs => by
    rw [postorder, Tree.reduce]
    rcases reduceAll_cases cs with ⟨hcs, rs, hrs, hcontributes⟩ | ⟨t, hbreach, herr⟩
    · rw [hrs]
      dsimp only
      rcases combine_decides kind hcontributes with ⟨haccepts, r, hr, hc⟩ | ⟨haccepts, herr⟩
      · refine .inl ⟨List.forall_mem_append.2 ⟨hcs, ?_⟩, r, by rw [hr], hc⟩
        exact List.forall_mem_singleton.2 haccepts
      · exact .inr ⟨node kind cs, ⟨_, [], rfl, hcs, haccepts⟩, by rw [herr]; rfl⟩
    · exact .inr ⟨t, hbreach.append_right _, by rw [herr]⟩

/-- Several trees are reduced by a walk over them from left to right. -/
theorem reduceAll_cases : ∀ ts : List Tree,
    WalkEnds (postorderOfList ts) (Tree.reduceAll ts) (List.Forall₂ Contributes ts)
  | [] => .inl ⟨nofun, [], by rw [Tree.reduceAll], .nil⟩
  | t :: ts => by
    rw [postorderOfList, Tree.reduceAll]
    rcases reduce_cases t with ⟨ht, r, hr, hc⟩ | ⟨u, hbreach, herr⟩
    · rw [hr]
      dsimp only
      rcases reduceAll_cases ts with ⟨hts, rs, hrs, hcs⟩ | ⟨u, hbreach, herr⟩
      · exact .inl ⟨List.forall_mem_append.2 ⟨ht, hts⟩, r :: rs, by rw [hrs], .cons hc hcs⟩
      · exact .inr ⟨u, hbreach.append_left ht, by rw [herr]⟩
    · exact .inr ⟨u, hbreach.append_right _, by rw [herr]⟩

end

theorem contributes_of_reduce {t : Tree} {r : Reduced} (h : t.reduce = .ok r) :
    Contributes t r := by
  rcases reduce_cases t with ⟨-, r', hr, hc⟩ | ⟨u, -, herr⟩
  · obtain rfl := Except.ok.inj (hr.symm.trans h)
    exact hc
  · rw [herr] at h
    cases h

/-! ## The architecture -/

/-- The parts of an architecture are the reductions of the root's own children. -/
structure PartsOf (tree : Tree) (a : Architecture) : Prop where
  input : ∃ t, tree.nodesOf .inputLayer = [t] ∧ t.reduce = .ok (.input a.input)
  hidden : List.Forall₂ (fun t l => Tree.reduce t = .ok (.hidden l))
    (tree.nodesOf .hiddenLayer) a.hidden
  output : ∃ t, tree.nodesOf .outputLayer = [t] ∧ t.reduce = .ok (.output a.output)

theorem eq_of_assemble {items : List Reduced} {a : Architecture}
    (h : Architecture.assemble items = .ok a) :
    items = .input a.input :: (a.hidden.map .hidden ++ [.output a.output]) := by
  unfold Architecture.assemble at h
  split at h
  · cases h
  · split at h
    · next layers output hok =>
      obtain rfl := Except.ok.inj h
      rw [eq_of_hiddenAndOutput hok]
    · cases h
  · cases h

/-- Marks are of no kind, so they may be left out before nodes are looked for. -/
theorem nodesOf_node (k kind : NodeKind) (cs : List Tree) :
    (node kind cs).nodesOf k = (cs.filter (!isMark ·)).filter (·.kind? == some k) := by
  rw [nodesOf, children, List.filter_filter]
  refine List.filter_congr fun c _ => ?_
  cases c with
  | leaf t => rfl
  | node k' cs' => exact (Bool.and_true _).symm

/-- The children other than marks, with what they are reduced to. -/
theorem exists_parts {cs : List Tree} {a : Architecture}
    (h : (node .ann cs).reduce = .ok (.architecture a)) :
    ∃ input layers output, cs.filter (!isMark ·) = input :: (layers ++ [output]) ∧
      input.reduce = .ok (.input a.input) ∧
      List.Forall₂ (fun t l => Tree.reduce t = .ok (.hidden l)) layers a.hidden ∧
      output.reduce = .ok (.output a.output) := by
  obtain ⟨rs, hrs, hcombine⟩ := reduce_node_eq_ok_iff.1 h
  have hassemble : Architecture.assemble (rs.filter (!·.isToken)) = .ok a := by
    rw [Architecture.combine] at hcombine
    split at hcombine
    · next b hb => rwa [← Reduced.architecture.inj (Except.ok.inj hcombine)]
    · cases hcombine
  have hparts := forall₂_filter_marks (fun _ _ => contributes_of_reduce) hrs
  rw [eq_of_assemble hassemble] at hparts
  obtain ⟨input, rest, hinput, hrest, hcs⟩ := List.forall₂_cons_right_iff.1 hparts
  have hlayers := List.forall₂_take_append _ _ _ hrest
  have houtputs := List.forall₂_drop_append _ _ _ hrest
  obtain ⟨output, _, houtput, hnil, hdrop⟩ := List.forall₂_cons_right_iff.1 houtputs
  obtain rfl := List.forall₂_nil_right_iff.1 hnil
  rw [List.forall₂_map_right_iff] at hlayers
  exact ⟨input, _, output, by rw [hcs, ← hdrop, List.take_append_drop], hinput, hlayers, houtput⟩

theorem partsOf_of_reduce {kind : NodeKind} {cs : List Tree} {a : Architecture}
    (h : (node kind cs).reduce = .ok (.architecture a)) : PartsOf (node kind cs) a := by
  obtain rfl : kind = .ann :=
    Option.some.inj ((contributes_of_reduce h).architecture_iff.2 ⟨a, rfl⟩)
  obtain ⟨input, layers, output, hcs, hinput, hlayers, houtput⟩ := exists_parts h
  have hinputKind := (contributes_of_reduce hinput).input_iff.2 ⟨_, rfl⟩
  have houtputKind := (contributes_of_reduce houtput).output_iff.2 ⟨_, rfl⟩
  have hlayerKind : ∀ layer ∈ layers, layer.kind? = some .hiddenLayer := by
    intro layer hlayer
    obtain ⟨l, -, hl⟩ := exists_of_forall₂ (List.Forall₂.flip hlayers) hlayer
    exact (contributes_of_reduce hl).hidden_iff.2 ⟨l, rfl⟩
  have hothers {k : NodeKind} (hk : k ≠ .hiddenLayer) :
      layers.filter (·.kind? == some k) = [] :=
    List.filter_eq_nil_iff.2 fun layer hlayer => by simpa [hlayerKind layer hlayer] using hk.symm
  have hall : layers.filter (·.kind? == some .hiddenLayer) = layers :=
    List.filter_eq_self.2 fun layer hlayer => by simp [hlayerKind layer hlayer]
  have hnodes (k : NodeKind) : (node .ann cs).nodesOf k =
      (input :: (layers ++ [output])).filter (·.kind? == some k) := by
    rw [nodesOf_node, hcs]
  refine ⟨⟨input, ?_, hinput⟩, ?_, ⟨output, ?_, houtput⟩⟩
  · simp [hnodes, hothers, hinputKind, houtputKind]
  · simpa [hnodes, hall, hinputKind, houtputKind] using hlayers
  · simp [hnodes, hothers, hinputKind, houtputKind]

/-- The error of a root that is no network. -/
theorem ofTree_eq_error {kind : NodeKind} (hkind : kind ≠ .ann) {cs : List Tree} {r : Reduced}
    (hr : (node kind cs).reduce = .ok r) : Architecture.ofTree (node kind cs) =
      .error (.unexpectedShape kind .root ((firstTokenOfList? cs).map Token.pos)) := by
  have hc := contributes_of_reduce hr
  rw [Architecture.ofTree, hr]
  split
  · next heq => cases heq
  · next a heq =>
    exact absurd (Option.some.inj (hc.architecture_iff.2 ⟨a, Except.ok.inj heq⟩)) hkind
  · rw [kind?, firstToken?, Option.getD_some]

/-- Any tree has an architecture exactly if it is a network and all its tokens and nodes obey
their rules.  The architecture then is made of the reductions of the root's children, in order;
otherwise the first token or node that breaks its rule is to blame, and last a root that is no
network. -/
theorem ofTree_node (kind : NodeKind) (cs : List Tree) :
    ((∃ a, Architecture.ofTree (node kind cs) = .ok a) ↔
      kind = .ann ∧ ∀ t ∈ postorder (node kind cs), Obeys t) ∧
    (∀ a, Architecture.ofTree (node kind cs) = .ok a → PartsOf (node kind cs) a) ∧
    (∀ t, FirstBreach (postorder (node kind cs)) t →
      Architecture.ofTree (node kind cs) = .error (fault t)) ∧
    (kind ≠ .ann → (∀ t ∈ postorder (node kind cs), Obeys t) →
      Architecture.ofTree (node kind cs) =
        .error (.unexpectedShape kind .root ((firstTokenOfList? cs).map Token.pos))) := by
  rcases reduce_cases (node kind cs) with ⟨hobeys, r, hr, hc⟩ | ⟨t, hbreach, herr⟩
  · have hbreach : ∀ t, ¬ FirstBreach (postorder (node kind cs)) t := fun t h =>
      h.not_forall hobeys
    by_cases hkind : kind = .ann
    · obtain ⟨a, rfl⟩ := hc.architecture_iff.1 (congrArg some hkind)
      have hok : Architecture.ofTree (node kind cs) = .ok a := by rw [Architecture.ofTree, hr]
      refine ⟨⟨fun _ => ⟨hkind, hobeys⟩, fun _ => ⟨a, hok⟩⟩, fun b hb => ?_,
        fun t ht => absurd ht (hbreach t), fun hne => absurd hkind hne⟩
      obtain rfl := Except.ok.inj (hok.symm.trans hb)
      exact partsOf_of_reduce hr
    · have hroot := ofTree_eq_error hkind hr
      refine ⟨⟨?_, fun h => absurd h.1 hkind⟩, ?_, fun t ht => absurd ht (hbreach t),
        fun _ _ => hroot⟩
      · rintro ⟨a, ha⟩
        cases hroot.symm.trans ha
      · intro a ha
        cases hroot.symm.trans ha
  · have hfault : Architecture.ofTree (node kind cs) = .error (fault t) := by
      rw [Architecture.ofTree, herr]
    refine ⟨⟨?_, fun h => absurd h.2 hbreach.not_forall⟩, ?_, fun u hu => ?_,
      fun _ h => absurd h hbreach.not_forall⟩
    · rintro ⟨a, ha⟩
      cases hfault.symm.trans ha
    · intro a ha
      cases hfault.symm.trans ha
    · rw [hu.unique hbreach, hfault]

/-- A network with a number and an empty network in its input layer, and an empty wrapper where
its hidden layers should be. -/
def strayChildren : List Tree :=
  [leaf ⟨.lbrace, "\x7b", ⟨1, 1⟩⟩,
    node .inputLayer [leaf ⟨.int, "12", ⟨2, 1⟩⟩, node .ann []],
    node .layerType []]

/-- A network of three nodes and no punctuation. -/
def bareChildren : List Tree :=
  [node .inputLayer [], node .hiddenLayer [leaf ⟨.layer .dense, "dense", ⟨1, 1⟩⟩],
    node .outputLayer []]

theorem ofTree_node_stray :
    FirstBreach (postorder (node .ann strayChildren)) (node .ann []) ∧
    Architecture.ofTree (node .ann strayChildren) =
      .error (.unexpectedShape .ann .complete none) ∧
    (∃ a, Architecture.ofTree (node .ann bareChildren) = .ok a ∧
      PartsOf (node .ann bareChildren) a) ∧
    Architecture.ofTree (node .inputLayer bareChildren) =
      .error (.unexpectedShape .inputLayer .root (some ⟨1, 1⟩)) := by
  have hstray : FirstBreach (postorder (node .ann strayChildren)) (node .ann []) := by
    refine ⟨[leaf ⟨.lbrace, "\x7b", ⟨1, 1⟩⟩, leaf ⟨.int, "12", ⟨2, 1⟩⟩], _, rfl, ?_, ?_⟩
    · simp only [List.forall_mem_cons, Obeys]
      exact ⟨by decide, by decide, by simp⟩
    · simp [Obeys, Accepts]
  have hbare : ∀ t ∈ postorderOfList bareChildren, Obeys t := by
    simp only [bareChildren, postorderOfList, postorder, List.nil_append, List.append_nil,
      List.cons_append, List.forall_mem_cons, Obeys, Accepts]
    exact ⟨trivial, by decide, ⟨_, rfl, by decide⟩, trivial, by simp⟩
  have hroot : ∀ kind, Accepts kind bareChildren →
      ∀ t ∈ postorder (node kind bareChildren), Obeys t := fun kind h =>
    List.forall_mem_append.2 ⟨hbare, List.forall_mem_singleton.2 h⟩
  obtain ⟨a, ha⟩ := (ofTree_node .ann bareChildren).1.2
    ⟨rfl, hroot .ann ⟨_, [_], _, rfl, rfl, by simp [kind?], rfl⟩⟩
  exact ⟨hstray, (ofTree_node .ann strayChildren).2.2.1 _ hstray,
    ⟨a, ha, (ofTree_node .ann bareChildren).2.1 a ha⟩,
    (ofTree_node .inputLayer bareChildren).2.2.2 (by decide) (hroot .inputLayer trivial)⟩

end NeuralArch.Meaning
