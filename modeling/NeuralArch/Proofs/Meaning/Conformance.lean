import NeuralArch.Compilation
import NeuralArch.Proofs.Meaning.Existence
import NeuralArch.Proofs.Meaning.Visiting
import NeuralArch.Proofs.Number.Order
import NeuralArch.Proofs.Syntax.Reading

/-!
# Compiled architectures conform to their rules

Validation looks at the characters of tokens, an architecture holds native
values.  An architecture that is made after validation found nothing conforms
to the rule table in its values: its layer types are known, its layers hold
only parameters that their types admit, and its numbers lie in their ranges.

* `Admits`, `Conforms` — what conformance means, without reference to text.
* `admits_of_violation?` — a number token that breaks no range stands for a
  value that the range admits.
* `conforms_of_compileText` — what is compiled conforms.
-/

namespace NeuralArch.Meaning

open NeuralArch.Tree
open Token Syntax Lexing

/-! ## Conformance -/

/-- Whether a range admits a value.  A range of integers admits no float; a range of floats
admits an integer by the float it is.  Values that are no numbers are not its concern. -/
def Admits : ParamRange → ParamValue → Prop
  | .int min, .int i => min ≤ i
  | .int _, .float _ => False
  | .float min max, .int i =>
      min ≤ Float.ofInt i.toInt ∧ Float.ofInt i.toInt < (ParamRange.float min max).upper
  | .float min max, .float x => min ≤ x ∧ x < (ParamRange.float min max).upper
  | _, .text _ => True
  | _, .list _ => True

/-- All parameters lie in their ranges. -/
def InRange (r : RuleTable) (params : ParamMap) : Prop :=
  ∀ name value range, params[name]? = some value → r.range? name = some range →
    Admits range value

/-- A layer of a known type that holds only what its type admits. -/
structure LayerConforms (r : RuleTable) (layer : Layer) : Prop where
  known : (r.allowed? layer.type).isSome = true
  admitted : ∀ allowed, r.allowed? layer.type = some allowed →
    ∀ name ∈ layer.params, name ∈ allowed
  inRange : InRange r layer.params

structure Conforms (r : RuleTable) (a : Architecture) : Prop where
  input : InRange r a.input
  hidden : ∀ layer ∈ a.hidden, LayerConforms r layer
  output : InRange r a.output

/-! ## Numbers in their ranges -/

theorem violation?_int_eq_none {r : RuleTable} {param text : String} {min : Int64}
    (hrange : r.range? param = some (.int min)) (h : r.violation? param text = none) :
    ∃ i, Number.readInt64? text = some i ∧ min ≤ i := by
  rw [RuleTable.violation?, hrange] at h
  dsimp only at h
  cases hread : Number.readInt64? text with
  | none => simp [hread] at h
  | some i =>
    rw [hread] at h
    by_cases hmin : min ≤ i
    · exact ⟨i, rfl, hmin⟩
    · simp [hmin] at h

theorem violation?_float_eq_none {r : RuleTable} {param text : String} {min : Float}
    {max : Option Float} (hrange : r.range? param = some (.float min max))
    (h : r.violation? param text = none) :
    ∃ x, Number.readFloat? text = some x ∧ min ≤ x ∧ x < (ParamRange.float min max).upper := by
  rw [RuleTable.violation?, hrange] at h
  dsimp only at h
  cases hread : Number.readFloat? text with
  | none => simp [hread] at h
  | some x =>
    rw [hread] at h
    by_cases hbounds : min ≤ x ∧ x < (ParamRange.float min max).upper
    · exact ⟨x, rfl, hbounds⟩
    · simp [hbounds] at h

/-- A number token that breaks no range stands for a value that the range admits. -/
theorem admits_of_violation? {r : RuleTable} {param : String} {t : Token} {v : ParamValue}
    (hfits : Fits t) (hvalue : ValueOf (leaf t) v) (hnumber : t.kind.isNumber = true)
    (h : r.violation? param t.value = none) {range : ParamRange}
    (hrange : r.range? param = some range) : Admits range v := by
  rw [Fits] at hfits
  rcases kind_of_isNumber hnumber with hk | hk
  · obtain ⟨i, hi, rfl⟩ := (valueOf_int_iff hk).1 hvalue
    rw [hk] at hfits
    cases range with
    | int min =>
      obtain ⟨j, hj, hmin⟩ := violation?_int_eq_none hrange h
      obtain rfl := Option.some.inj (hi.symm.trans hj)
      exact hmin
    | float min max =>
      obtain ⟨x, hx, hmin, hupper⟩ := violation?_float_eq_none hrange h
      -- The text and the integer differ at most by the sign of a zero.
      rcases readFloat?_of_readInt64? hfits hi with hy | ⟨hzero, hy⟩
      · obtain rfl := Option.some.inj (hx.symm.trans hy)
        exact ⟨hmin, hupper⟩
      · obtain rfl := Option.some.inj (hx.symm.trans hy)
        rw [Admits, hzero]
        exact ⟨(Number.le_negZero_iff min).1 hmin, (Number.negZero_lt_iff _).1 hupper⟩
  · obtain ⟨x, hx, rfl⟩ := (valueOf_float_iff hk).1 hvalue
    rw [hk] at hfits
    cases range with
    | int min =>
      obtain ⟨j, hj, -⟩ := violation?_int_eq_none hrange h
      rw [readInt64?_of_mem_float hfits] at hj
      exact absurd hj (by simp)
    | float min max =>
      obtain ⟨y, hy, hbounds⟩ := violation?_float_eq_none hrange h
      obtain rfl := Option.some.inj (hx.symm.trans hy)
      exact hbounds

/-- Words and lists are no concern of a range. -/
theorem admits_of_not_number {s : ValueShape} {tree : Tree} {v : ParamValue}
    (hshape : ValueTree s tree) (hvalue : ValueOf tree v) (h : numberToken? tree = none)
    (range : ParamRange) : Admits range v := by
  have hleaf : ∀ t, tree = leaf t → t.kind.isNumber = true → False := by
    rintro t rfl hnumber
    simp [numberToken?, Tree.token?, hnumber] at h
  cases hvalue with
  | int hk => exact (hleaf _ rfl (by rw [hk]; rfl)).elim
  | float hk => exact (hleaf _ rfl (by rw [hk]; rfl)).elim
  | word => cases range <;> trivial
  | wrapped => cases range <;> trivial
  | list => cases range <;> trivial

/-- A parameter with nothing to report has a value that its range admits. -/
theorem admits_of_checkRange {r : RuleTable} {name : Token} {s : ValueShape} {tree : Tree}
    {v : ParamValue} (hshape : ValueTree s tree) (hvalue : ValueOf tree v)
    (hfits : ∀ t ∈ tree.tokens, Fits t)
    (h : r.checkRange name (numberToken? tree) = []) {range : ParamRange}
    (hrange : r.range? name.value = some range) : Admits range v := by
  cases hnumber : numberToken? tree with
  | none => exact admits_of_not_number hshape hvalue hnumber range
  | some t =>
    obtain ⟨htoken, hkind⟩ := Option.filter_eq_some_iff.1 hnumber
    match tree, htoken with
    | leaf _, rfl =>
      rw [hnumber, RuleTable.checkRange] at h
      refine admits_of_violation? (hfits t (List.mem_singleton_self t)) hvalue hkind ?_ hrange
      cases hviolation : r.violation? name.value t.value with
      | none => rfl
      | some cause => simp [hviolation] at h

/-! ## Parameters -/

/-- The name of a parameter is written as it is stored. -/
theorem value_eq_word {t : Token} {p : ParamName} (hkind : t.kind = .param p) (hfits : Fits t) :
    t.value = p.word :=
  hfits.value_eq (by rw [hkind]; rfl)

theorem admits_of_endParam {r : RuleTable} {b : Block} (hb : b ≠ .hidden)
    {layer : Option String} {tree : Tree} (h : ParamTree b tree)
    (hfits : ∀ t ∈ tree.tokens, Fits t) (hvisit : r.visit layer tree = []) {name : String}
    {v : ParamValue} (hitem : ParamOf tree (name, v)) {range : ParamRange}
    (hrange : r.range? name = some range) : Admits range v := by
  obtain ⟨hname, -, -, hshape, -⟩ := h
  rename_i word equals semicolon p value
  obtain ⟨w, hvalue, heq⟩ := (paramOf_iff hname).1 hitem
  obtain ⟨rfl, rfl⟩ := Prod.mk.inj heq
  rw [visit_endParam r hb] at hvisit
  have hparts := forall_tokens_node hfits
  have hword := value_eq_word hname (hparts (leaf word) (by simp) word (by simp [tokens]))
  exact admits_of_checkRange hshape hvalue (hparts value (by simp)) hvisit (hword ▸ hrange)

theorem conforms_of_layerParam {r : RuleTable} {type : String}
    {allowed : Std.ExtTreeSet String} (hallowed : r.allowed? type = some allowed)
    {tree : Tree} (h : ParamTree .hidden tree) (hfits : ∀ t ∈ tree.tokens, Fits t)
    (hvisit : r.visit (some type) tree = []) {name : String} {v : ParamValue}
    (hitem : ParamOf tree (name, v)) :
    name ∈ allowed ∧ ∀ range, r.range? name = some range → Admits range v := by
  obtain ⟨hname, -, -, hshape, -⟩ := h
  rename_i word equals semicolon p value
  obtain ⟨w, hvalue, heq⟩ := (paramOf_iff hname).1 hitem
  obtain ⟨rfl, rfl⟩ := Prod.mk.inj heq
  have hparts := forall_tokens_node hfits
  have hword := value_eq_word hname (hparts (leaf word) (by simp) word (by simp [tokens]))
  rw [paramKind, visit_layerParam r hallowed] at hvisit
  by_cases hcontains : allowed.contains word.value = true
  · rw [if_pos hcontains] at hvisit
    refine ⟨hword ▸ Std.ExtTreeSet.mem_iff_contains.2 hcontains, fun range hrange => ?_⟩
    exact admits_of_checkRange hshape hvalue (hparts value (by simp)) hvisit (hword ▸ hrange)
  · rw [if_neg hcontains] at hvisit
    exact absurd hvisit (by simp)

/-! ## Blocks -/

/-- What a map holds was assigned.  Of repeated names only the last assignment is held, but
it is an assignment like the others. -/
theorem mem_of_getElem?_ofList {items : List (String × ParamValue)} {name : String}
    {v : ParamValue} (h : (Std.ExtTreeMap.ofList items : ParamMap)[name]? = some v) :
    (name, v) ∈ items := by
  rw [Std.ExtTreeMap.ofList_eq_foldl] at h
  induction items using List.reverseRecOn with
  | nil => simp at h
  | append_singleton items item ih =>
    rw [List.foldl_concat, Std.ExtTreeMap.getElem?_insert] at h
    split at h
    · next heq =>
      rw [Std.LawfulEqCmp.compare_eq_iff_eq] at heq
      rw [Option.some.injEq] at h
      rw [← heq, ← h]
      exact List.mem_append_right _ (List.mem_singleton_self _)
    · exact List.mem_append_left _ (ih h)

theorem inRange_of_endBlock {r : RuleTable} {b : Block} (hb : b ≠ .hidden)
    {layer : Option String} {tree : Tree} (h : BlockTree b tree)
    (hfits : ∀ t ∈ tree.tokens, Fits t) (hvisit : r.visit layer tree = []) {m : ParamMap}
    (hm : BlockOf tree m) : InRange r m := by
  obtain ⟨hhead, -, hparams, -⟩ := h
  rename_i head lbrace rbrace params
  obtain ⟨items, hitems, rfl⟩ := blockOf_braces_iff.1 hm
  rw [visit_endBlock r hb hhead, List.flatMap_eq_nil_iff] at hvisit
  intro name v range hv hrange
  obtain ⟨p, hp, hitem⟩ := exists_of_forall₂ hitems (mem_of_getElem?_ofList hv)
  have hpfits := forall_tokens_node hfits p (by simp [hp])
  exact admits_of_endParam hb (hparams p hp) hpfits (hvisit p hp) hitem hrange

theorem conforms_of_hiddenBlock {r : RuleTable} {layer : Option String} {tree : Tree}
    (h : BlockTree .hidden tree) (hfits : ∀ t ∈ tree.tokens, Fits t)
    (hvisit : r.visit layer tree = []) {l : Layer} (hl : LayerOf tree l) :
    LayerConforms r l := by
  obtain ⟨⟨type, htype, rfl⟩, -, hparams, -⟩ := h
  rename_i lbrace rbrace params
  rw [blockKind, visit_hiddenBlock r htype] at hvisit
  obtain ⟨t, htype⟩ := exists_layer htype
  have hparts := forall_tokens_node hfits
  have hvalue : type.value = t.word :=
    (hparts (node .layerType [leaf type]) (by simp) type (by simp [tokens, tokensOfList])).value_eq
      (by rw [htype]; rfl)
  obtain ⟨m, hm, rfl⟩ := (layerOf_iff htype).1 hl
  obtain ⟨items, hitems, rfl⟩ := (@blockOf_braces_iff _ _ _ _ params _).1 hm
  have hassigned {name : String} {v : ParamValue}
      (hv : (Std.ExtTreeMap.ofList items : ParamMap)[name]? = some v) :
      ∃ p ∈ params, ParamOf p (name, v) :=
    exists_of_forall₂ hitems (mem_of_getElem?_ofList hv)
  cases hallowed : r.allowed? type.value with
  | none =>
    simp [hallowed] at hvisit
  | some allowed =>
    rw [hallowed, if_neg (by simp), List.flatMap_eq_nil_iff] at hvisit
    have hparam {name : String} {v : ParamValue}
        (hv : (Std.ExtTreeMap.ofList items : ParamMap)[name]? = some v) :
        name ∈ allowed ∧ ∀ range, r.range? name = some range → Admits range v := by
      obtain ⟨p, hp, hitem⟩ := hassigned hv
      exact conforms_of_layerParam hallowed (hparams p hp) (hparts p (by simp [hp]))
        (hvisit p hp) hitem
    rw [hvalue] at hallowed
    refine ⟨by rw [hallowed]; rfl, ?_, fun name v range hv hrange => (hparam hv).2 range hrange⟩
    intro allowed' hallowed' name hname
    obtain rfl := Option.some.inj (hallowed.symm.trans hallowed')
    exact (hparam (Std.ExtTreeMap.getElem?_eq_some_getElem hname)).1

/-! ## Architectures -/

/-- An architecture of a tree that validation has nothing against conforms. -/
theorem conforms_of_validate {r : RuleTable} {tree : Tree} {a : Architecture}
    (h : DescriptionTree tree) (hfits : ∀ t ∈ tree.tokens, Fits t)
    (hvalid : r.validate tree = []) (ha : ArchitectureOf tree a) : Conforms r a := by
  obtain ⟨-, -, hinput, hhidden, houtput, -⟩ := h
  rename_i word lbrace rbrace input output hidden
  rw [validate_network, List.append_eq_nil_iff, List.append_eq_nil_iff,
    List.flatMap_eq_nil_iff] at hvalid
  obtain ⟨⟨hvisitInput, hvisitHidden⟩, hvisitOutput⟩ := hvalid
  obtain ⟨hi, hls, ho⟩ := architectureOf_iff.1 ha
  have hparts := forall_tokens_node hfits
  refine ⟨?_, fun l hl => ?_, ?_⟩
  · exact inRange_of_endBlock (by decide) hinput (hparts input (by simp)) hvisitInput hi
  · obtain ⟨t, ht, hlayer⟩ := exists_of_forall₂ hls hl
    exact conforms_of_hiddenBlock (hhidden t ht) (hparts t (by simp [ht])) (hvisitHidden t ht)
      hlayer
  · exact inRange_of_endBlock (by decide) houtput (hparts output (by simp)) hvisitOutput ho

theorem check_eq_nil_iff {r : RuleTable} {tree : Tree} :
    r.check tree = [] ↔ r.validate tree = [] := by
  rw [RuleTable.check, ← List.length_eq_zero_iff, List.length_mergeSort,
    List.length_eq_zero_iff]

theorem compile_eq_ok_iff {r : RuleTable} {tree : Tree} {a : Architecture} :
    r.compile tree = .ok a ↔ r.validate tree = [] ∧ Architecture.ofTree tree = .ok a := by
  rw [RuleTable.compile, ← check_eq_nil_iff]
  cases r.check tree with
  | nil => cases Architecture.ofTree tree <;> simp
  | cons d ds => simp

theorem compileText_eq_ok_iff {r : RuleTable} {text : String} {a : Architecture} :
    r.compileText text = .ok a ↔
      ∃ tree, Tree.ofText text = .ok tree ∧ r.validate tree = [] ∧
        Architecture.ofTree tree = .ok a := by
  rw [RuleTable.compileText]
  cases Tree.ofText text with
  | error e => simp
  | ok tree => simp [compile_eq_ok_iff]

/-- What is compiled under a rule table conforms to it. -/
theorem conforms_of_compileText (r : RuleTable) (text : String) (a : Architecture)
    (h : r.compileText text = .ok a) : Conforms r a := by
  obtain ⟨tree, htree, hvalid, ha⟩ := compileText_eq_ok_iff.1 h
  obtain ⟨hshape, htokens⟩ := ofText_eq_ok_iff.1 htree
  exact conforms_of_validate hshape (fits_of_ofText htokens) hvalid
    ((ofTree_eq_ok_iff hshape).1 ha)

/-- A layer that is given its number of units twice. -/
def repeatedUnits : String :=
  "neuralnet \x7b input \x7b features = 3; \x7d dense \x7b units = 4; units = 8; dropout = 0.5;"
    ++ " \x7d output \x7b \x7d \x7d"

theorem conforms_repeatedUnits : ∃ a,
    RuleTable.standard.compileText repeatedUnits = .ok a ∧ Conforms RuleTable.standard a := by
  have hok : (RuleTable.standard.compileText repeatedUnits).toOption.isSome = true := by
    decide +kernel
  cases h : RuleTable.standard.compileText repeatedUnits with
  | error e => simp [h, Except.toOption] at hok
  | ok a => exact ⟨a, rfl, conforms_of_compileText _ repeatedUnits a h⟩

end NeuralArch.Meaning
