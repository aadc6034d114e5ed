import NeuralArch.Compilation
import NeuralArch.Proofs.Lexing.Cut
import NeuralArch.Proofs.Syntax.Reading

/-!
# Diagnostics in the order of the text

The walk over a tree reports a fault at a token of the tree, and it never goes
back: the places it reports are places of tokens, in their order and each at
most once.  That is so for any tree.  In the tree of a text the places of the
tokens grow, so those of the diagnostics grow too, and sorting them by place
leaves them as they were found.

* `mem_tokens_of_findInList?` — what a search finds is part of what it searches.
* `places_visit` — where the walk reports something, for any tree.
* `check_eq_validate` — diagnostics at growing places need no sorting.
* `check_ordered` — the diagnostics of a text.
-/

namespace NeuralArch.Meaning

open NeuralArch.Tree
open Token Lexing

/-! ## Searching -/

mutual

theorem mem_tokens_of_find? {k : NodeKind} {u : Tree} :
    ∀ {t : Tree}, t.find? k = some u → ∀ token ∈ u.tokens, token ∈ t.tokens
  | leaf _, h => by simp [find?] at h
  | node _ cs, h => by
    rw [find?] at h
    split at h
    · obtain rfl := Option.some.inj h
      exact fun _ htoken => htoken
    · rw [tokens]
      exact mem_tokens_of_findInList? h

/-- The tokens of a tree that is found are tokens of what was searched. -/
theorem mem_tokens_of_findInList? {k : NodeKind} {u : Tree} :
    ∀ {ts : List Tree}, findInList? k ts = some u → ∀ token ∈ u.tokens, token ∈ tokensOfList ts
  | [], h => by simp [findInList?] at h
  | t :: ts, h => by
    intro token htoken
    rw [tokensOfList, List.mem_append]
    rw [findInList?, Option.or_eq_some_iff] at h
    rcases h with h | ⟨-, h⟩
    · exact .inl (mem_tokens_of_find? h token htoken)
    · exact .inr (mem_tokens_of_findInList? h token htoken)

end

theorem mem_tokens_of_firstToken? {t : Tree} {token : Token} (h : t.firstToken? = some token) :
    token ∈ t.tokens :=
  List.mem_of_head? (by rw [head?_tokens, h])

/-- The token that names a hidden layer's type is one of the layer's. -/
theorem mem_tokens_of_layerType {cs : List Tree} {type : Token}
    (h : (findInList? .layerType cs).bind firstToken? = some type) :
    type ∈ tokensOfList cs := by
  obtain ⟨u, hfound, hfirst⟩ := Option.bind_eq_some_iff.1 h
  exact mem_tokens_of_findInList? hfound type (mem_tokens_of_firstToken? hfirst)

theorem mem_tokens_of_paramParts? {cs : List Tree} {name : Token} {value : Option Token}
    (h : RuleTable.paramParts? cs = some (name, value)) : name ∈ tokensOfList cs := by
  unfold RuleTable.paramParts? at h
  split at h
  · next t rest =>
    obtain ⟨rfl, -⟩ := Prod.mk.inj (Option.some.inj h)
    rw [tokensOfList, tokens]
    exact List.mem_append_left _ (List.mem_singleton_self _)
  · simp at h

/-! ## Where the walk reports -/

/-- The places of some diagnostics are places of some tokens, in the same order. -/
def AtTokens (ds : List Diagnostic) (ts : List Token) : Prop :=
  (ds.map Diagnostic.pos).Sublist (ts.map Token.pos)

variable (r : RuleTable)

theorem atTokens_nil (ts : List Token) : AtTokens [] ts := List.nil_sublist _

theorem atTokens_singleton {token : Token} {ts : List Token} (h : token ∈ ts)
    (cause : Diagnostic.Cause) : AtTokens [⟨cause, token.pos⟩] ts :=
  List.singleton_sublist.2 (List.mem_map_of_mem h)

theorem AtTokens.append {ds es : List Diagnostic} {ts us : List Token} (hds : AtTokens ds ts)
    (hes : AtTokens es us) : AtTokens (ds ++ es) (ts ++ us) := by
  rw [AtTokens, List.map_append, List.map_append]
  exact List.Sublist.append hds hes

theorem atTokens_checkRange {name : Token} {ts : List Token} (h : name ∈ ts)
    (value : Option Token) : AtTokens (r.checkRange name value) ts := by
  cases value with
  | none => exact atTokens_nil ts
  | some value =>
    rw [RuleTable.checkRange]
    cases r.violation? name.value value.value with
    | none => exact atTokens_nil ts
    | some cause => exact atTokens_singleton h cause

theorem atTokens_checkParam (cs : List Tree) : AtTokens (r.checkParam cs) (tokensOfList cs) := by
  rw [RuleTable.checkParam]
  split
  · exact atTokens_nil _
  · next name value hparts => exact atTokens_checkRange r (mem_tokens_of_paramParts? hparts) value

theorem atTokens_checkLayerParam (layer : String) (cs : List Tree) :
    AtTokens (r.checkLayerParam layer cs) (tokensOfList cs) := by
  rw [RuleTable.checkLayerParam]
  split
  · next name value allowed hparts _ =>
    have hname := mem_tokens_of_paramParts? hparts
    split
    · exact atTokens_checkRange r hname value
    · exact atTokens_singleton hname _
  · exact atTokens_nil _

mutual

/-- The walk reports at tokens of the tree, from left to right and at no token twice. -/
theorem places_visit (layer : Option String) : ∀ t : Tree, AtTokens (r.visit layer t) t.tokens
  | leaf _ => by
    rw [RuleTable.visit]
    exact atTokens_nil _
  | node kind cs => by
    have hall : ∀ layer, AtTokens (r.visitAll layer cs) (tokensOfList cs) :=
      fun layer => places_visitAll layer cs
    rw [tokens]
    cases kind with
    | hiddenLayer =>
      rw [RuleTable.visit]
      split
      · exact hall none
      · next type htype =>
        split
        · exact atTokens_singleton (mem_tokens_of_layerType htype) _
        · exact hall (some type.value)
    | layerParam =>
      cases layer with
      | none => rw [RuleTable.visit]; exact atTokens_nil _
      | some layer => rw [RuleTable.visit]; exact atTokens_checkLayerParam r layer cs
    | inputParam =>
      rw [RuleTable.visit]
      exact atTokens_checkParam r cs
    | outputParam =>
      rw [RuleTable.visit]
      exact atTokens_checkParam r cs
    | _ =>
      rw [RuleTable.visit]
      · exact hall layer
      all_goals simp

theorem places_visitAll (layer : Option String) :
    ∀ ts : List Tree, AtTokens (r.visitAll layer ts) (tokensOfList ts)
  | [] => by
    rw [RuleTable.visitAll]
    exact atTokens_nil _
  | t :: ts => by
    rw [RuleTable.visitAll, tokensOfList]
    exact (places_visit layer t).append (places_visitAll layer ts)

end

/-! ## Growing places -/

theorem atMost_of_precedes {p q : Position} (h : Precedes p q) : p.atMost q = true := by
  rw [Position.atMost, Bool.or_eq_true, Bool.and_eq_true, decide_eq_true_iff, beq_iff_eq,
    decide_eq_true_iff]
  exact h.imp_right fun h => ⟨h.1, Nat.le_of_lt h.2⟩

/-- Where the places of the tokens grow, those of the diagnostics do. -/
theorem pairwise_validate {t : Tree} (h : (t.tokens.map Token.pos).Pairwise Precedes) :
    ((r.validate t).map Diagnostic.pos).Pairwise Precedes :=
  h.sublist (places_visit r none t)

/-- Diagnostics at growing places stay as they were found. -/
theorem check_eq_validate {t : Tree} (h : (t.tokens.map Token.pos).Pairwise Precedes) :
    r.check t = r.validate t :=
  List.mergeSort_of_pairwise
    ((List.pairwise_map.1 (pairwise_validate r h)).imp fun h => atMost_of_precedes h)

/-- The places of the tokens of a text grow. -/
theorem pairwise_tokens {text : String} {t : Tree} (h : Tree.ofText text = .ok t) :
    (t.tokens.map Token.pos).Pairwise Precedes := by
  have hcuts : CutsTo [] text.toList (Token.ofText text) := cutsTo_ofTextAt [] text.toList
  rw [(Syntax.ofText_eq_ok_iff.1 h).2] at hcuts
  obtain ⟨-, -, -, -, -, -, hgrow⟩ := hcuts
  exact hgrow

/-- A tree with diagnostics is not compiled. -/
theorem compile_of_check {t : Tree} (h : r.check t ≠ []) :
    r.compile t = .error (.invalid (r.check t)) := by
  rw [RuleTable.compile]
  split
  · next hnil => exact absurd hnil h
  · rfl

/-- The diagnostics of a text are those that the walk over its tree finds, in the same order, and
their places grow; if there are any, it is with these that the text fails to compile. -/
theorem check_ordered (text : String) (tree : Tree) (h : Tree.ofText text = .ok tree) :
    r.checkText text = .ok (r.validate tree) ∧
      ((r.validate tree).map Diagnostic.pos).Pairwise Precedes ∧
      (r.validate tree ≠ [] → r.compileText text = .error (.invalid (r.validate tree))) := by
  have hgrow := pairwise_tokens h
  have hcheck := check_eq_validate r hgrow
  refine ⟨?_, pairwise_validate r hgrow, fun hsome => ?_⟩
  · rw [RuleTable.checkText, h, ← hcheck]
    rfl
  · rw [RuleTable.compileText, h, ← hcheck]
    exact compile_of_check r (hcheck ▸ hsome)

/-- Faults in two blocks of a description of several lines. -/
def severalLines : String :=
  "neuralnet \x7b\n input \x7b features = 0; \x7d\n dense \x7b units = 0; dropout = 9.0; \x7d\n"
    ++ " output \x7b \x7d\n\x7d"

theorem check_ordered_severalLines : ∃ tree, Tree.ofText severalLines = .ok tree ∧
    RuleTable.standard.checkText severalLines = .ok (RuleTable.standard.validate tree) ∧
    ((RuleTable.standard.validate tree).map Diagnostic.pos).Pairwise Precedes ∧
    RuleTable.standard.compileText severalLines =
      .error (.invalid (RuleTable.standard.validate tree)) := by
  have hread : (Tree.ofText severalLines).toOption.any
      (fun t => (RuleTable.standard.validate t).length == 3) = true := by decide +kernel
  cases h : Tree.ofText severalLines with
  | error e => simp [h, Except.toOption] at hread
  | ok tree =>
    obtain ⟨hcheck, hgrow, hcompile⟩ := check_ordered RuleTable.standard _ tree h
    refine ⟨tree, rfl, hcheck, hgrow, hcompile fun hnil => ?_⟩
    simp [h, hnil, Except.toOption] at hread

end NeuralArch.Meaning
