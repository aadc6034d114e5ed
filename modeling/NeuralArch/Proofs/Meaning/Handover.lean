import NeuralArch.Proofs.Json.Exchange
import NeuralArch.Proofs.Meaning.Conformance

/-!
# Compiled architectures as JSON

A number token may denote a number beyond all floats, and is then read as an
infinity.  The standard rules give every parameter that is a number a range, and
no range admits an infinity, with one exception: nothing is asked of an axis.  An
infinite axis is printed as `null`, and then the architecture is not read back;
every other architecture that is compiled is, by a reader of floats that reads back
those it has.

* `Assigned` — what a block assigns, by the shapes of its parameters.
* `isBounded_range?` — the ranges of the standard rules.
* `handover_of_compileText` — which numbers of a compiled architecture are finite,
  and when its JSON is read back.
-/

namespace NeuralArch.Meaning

open NeuralArch.Tree
open Token Syntax Lexing Number

/-! ## Infinite values -/

/-- A float that is not finite, but a number. -/
def Infinite (v : ParamValue) : Prop := v = .float infinity ∨ v = .float (-infinity)

/-- A float token is read as a number. -/
theorem isNaN_readFloat? {text : String} (h : text.toList ∈ Lexing.float) {x : Float}
    (hx : readFloat? text = some x) : x.isNaN = false := by
  obtain ⟨ws, rest, hws, -, htext⟩ := exists_append_of_mem_float h
  obtain ⟨negative, ds, hds, hsplit⟩ := splitSign_of_mem_integer hws
  rw [readFloat?_eq (by rw [htext]; exact hsplit rest) hds, Option.map_eq_some_iff] at hx
  obtain ⟨n, -, rfl⟩ := hx
  have hnumber : n.toFloat.isNaN = false := isNaN_nearest _ _ _
  cases negative with
  | false => exact hnumber
  | true => exact (isNaN_neg _).trans hnumber

/-- A float token is a value only where any number may stand. -/
theorem shape_of_float {s : ValueShape} {t : Token} (hshape : ValueTree s (.leaf t))
    (hk : t.kind = .float) : s = .number := by
  cases s with
  | number => rfl
  | padding =>
    obtain ⟨u, hu, heq⟩ := hshape
    obtain rfl := Tree.leaf.inj heq
    simp [hk, Kind.isPadding] at hu
  | poolType =>
    obtain ⟨u, hu, heq⟩ := hshape
    obtain rfl := Tree.leaf.inj heq
    simp [hk, Kind.isPoolType] at hu
  | activation =>
    obtain ⟨u, -, heq⟩ := hshape
    exact Tree.noConfusion heq
  | initializer =>
    obtain ⟨u, -, heq⟩ := hshape
    exact Tree.noConfusion heq
  | dilationList =>
    obtain ⟨_, _, _, -, -, -, heq⟩ := hshape
    exact Tree.noConfusion heq

/-- Only a number token denotes something infinite. -/
theorem infinite_of_valueOf {s : ValueShape} {tree : Tree} {v : ParamValue}
    (hshape : ValueTree s tree) (hfits : ∀ t ∈ tree.tokens, Fits t) (hvalue : ValueOf tree v)
    (h : ¬ v.isFinite = true) : s = .number ∧ Infinite v := by
  cases hvalue with
  | int => exact absurd rfl h
  | @float t x hk hx =>
    have hfit := hfits t (List.mem_singleton_self t)
    rw [Fits, hk] at hfit
    refine ⟨shape_of_float hshape hk, ?_⟩
    rcases eq_infinity_of_not_finite (isNaN_readFloat? hfit hx) h with rfl | rfl
    · exact .inl rfl
    · exact .inr rfl
  | word => exact absurd rfl h
  | wrapped => exact absurd rfl h
  | list => exact absurd rfl h

/-! ## What blocks assign -/

/-- The parameters are such as a block may hold, and none is infinite that is not given a
number. -/
def Assigned (b : Block) (params : ParamMap) : Prop :=
  ∀ (name : String) (v : ParamValue), params[name]? = some v →
    ∃ p : ParamName, p.word = name ∧ b.admits p = true ∧
      (¬ v.isFinite = true → p.shape = .number ∧ Infinite v)

theorem assigned_of_block {b : Block} {tree : Tree} (h : BlockTree b tree)
    (hfits : ∀ t ∈ tree.tokens, Fits t) {m : ParamMap} (hm : BlockOf tree m) : Assigned b m := by
  obtain ⟨-, -, hparams, -⟩ := h
  rename_i head lbrace rbrace params
  obtain ⟨items, hitems, rfl⟩ := blockOf_braces_iff.1 hm
  intro name v hv
  obtain ⟨tree, htree, hitem⟩ := exists_of_forall₂ hitems (mem_of_getElem?_ofList hv)
  have htreeFits := forall_tokens_node hfits tree (by simp [htree])
  obtain ⟨hname, hadmits, -, hshape, -⟩ := hparams tree htree
  rename_i word equals semicolon p value
  obtain ⟨w, hvalue, heq⟩ := (paramOf_iff hname).1 hitem
  obtain ⟨rfl, rfl⟩ := Prod.mk.inj heq
  exact ⟨p, rfl, hadmits,
    infinite_of_valueOf hshape (forall_tokens_node htreeFits value (by simp)) hvalue⟩

theorem assigned_of_layer {tree : Tree} (h : BlockTree .hidden tree)
    (hfits : ∀ t ∈ tree.tokens, Fits t) {l : Layer} (hl : LayerOf tree l) :
    Assigned .hidden l.params := by
  obtain ⟨-, hm⟩ := hl
  exact assigned_of_block h hfits hm

/-! ## The standard ranges -/

/-- Whether a range excludes everything infinite. -/
def isBounded : ParamRange → Bool
  | .int _ => true
  | .float min _ => 0 ≤ min

/-- Every number has such a range, except an axis. -/
theorem isBounded_range? {p : ParamName} (hp : p.shape = .number) (haxis : p ≠ .axis) :
    ∃ range, RuleTable.standard.range? p.word = some range ∧ isBounded range = true := by
  have htable : ∀ p ∈ ParamName.all, p.shape = .number → p ≠ .axis →
      (RuleTable.standard.range? p.word).any isBounded = true := by
    decide +kernel
  have hany := htable p p.mem_all hp haxis
  rwa [Option.any_eq_true] at hany

/-- Such a range admits nothing infinite, since it stays below its upper bound. -/
theorem not_infinite_of_admits {range : ParamRange} (hrange : isBounded range = true)
    {v : ParamValue} (h : Admits range v) : ¬ Infinite v := by
  cases range with
  | int min => rintro (rfl | rfl) <;> exact h
  | float min max =>
    rintro (rfl | rfl)
    · exact not_infinity_lt _ h.2
    · exact not_le_negInfinity (of_decide_eq_true hrange) h.1

/-- Under the standard rules, an axis alone may be infinite. -/
theorem isFinite_of_assigned {b : Block} {params : ParamMap} (h : Assigned b params)
    (hrange : InRange RuleTable.standard params) {name : String} {v : ParamValue}
    (hv : params[name]? = some v) :
    v.isFinite = true ∨ name = "axis" ∧ b.admits .axis = true ∧ Infinite v := by
  obtain ⟨p, rfl, hadmits, hinfinite⟩ := h name v hv
  by_cases hfinite : v.isFinite = true
  · exact .inl hfinite
  · obtain ⟨hnumber, hinf⟩ := hinfinite hfinite
    by_cases haxis : p = .axis
    · subst haxis
      exact .inr ⟨rfl, hadmits, hinf⟩
    · obtain ⟨range, hr, hbounded⟩ := isBounded_range? hnumber haxis
      exact absurd hinf (not_infinite_of_admits hbounded (hrange _ v range hv hr))

theorem allFinite_of_assigned {b : Block} (hb : b.admits .axis = false) {params : ParamMap}
    (h : Assigned b params) (hrange : InRange RuleTable.standard params) :
    ParamMap.AllFinite params := by
  intro name v hv
  rcases isFinite_of_assigned h hrange hv with hfinite | ⟨-, haxis, -⟩
  · exact hfinite
  · rw [hb] at haxis
    exact Bool.noConfusion haxis

/-- No parameter has the name that the type of a layer goes by. -/
theorem untyped_of_assigned {b : Block} {params : ParamMap} (h : Assigned b params) :
    "type" ∉ params := by
  intro htype
  obtain ⟨p, hp, -⟩ := h "type" _ (Std.ExtTreeMap.getElem?_eq_some_getElem htype)
  revert hp
  cases p <;> decide

/-! ## Architectures -/

/-- All values are finite, except that an axis may be infinite. -/
def FiniteButAxis (params : ParamMap) : Prop :=
  ∀ (name : String) (v : ParamValue), params[name]? = some v →
    v.isFinite = true ∨ name = "axis" ∧ Infinite v

/-- An architecture that is compiled under the standard rules has finite numbers alone, except
that an axis may be infinite.  So its JSON is read back exactly if every axis is finite, given a
reader of floats that reads back the finite ones. -/
theorem handover_of_compileText (text : String) (a : Architecture)
    (h : RuleTable.standard.compileText text = .ok a) :
    (ParamMap.AllFinite a.input ∧ (∀ l ∈ a.hidden, FiniteButAxis l.params) ∧
        ParamMap.AllFinite a.output) ∧
      ∀ floats : Json.FloatReader,
        (∀ x ∈ a.floatValues, x.isFinite = true → Json.ReadsBack floats x) →
          (Architecture.parse? floats a.render = some a ↔
            ∀ l ∈ a.hidden, ∀ v, l.params["axis"]? = some v → v.isFinite = true) := by
  obtain ⟨tree, htree, hvalid, ha⟩ := compileText_eq_ok_iff.1 h
  obtain ⟨hshape, htokens⟩ := ofText_eq_ok_iff.1 htree
  have hfits := fits_of_ofText htokens
  have hmeaning := (ofTree_eq_ok_iff hshape).1 ha
  have hconforms := conforms_of_validate hshape hfits hvalid hmeaning
  obtain ⟨-, -, hinputTree, hhiddenTree, houtputTree, -⟩ := hshape
  rename_i word lbrace rbrace input output hidden
  obtain ⟨hi, hls, ho⟩ := architectureOf_iff.1 hmeaning
  have hparts := forall_tokens_node hfits
  have hinput : ParamMap.AllFinite a.input := allFinite_of_assigned rfl
    (assigned_of_block hinputTree (hparts input (by simp)) hi) hconforms.input
  have houtput : ParamMap.AllFinite a.output := allFinite_of_assigned rfl
    (assigned_of_block houtputTree (hparts output (by simp)) ho) hconforms.output
  have hassigned : ∀ l ∈ a.hidden, Assigned .hidden l.params := by
    intro l hl
    obtain ⟨t, ht, hlayer⟩ := exists_of_forall₂ hls hl
    exact assigned_of_layer (hhiddenTree t ht) (hparts t (by simp [ht])) hlayer
  have hhidden : ∀ l ∈ a.hidden, FiniteButAxis l.params := by
    intro l hl name v hv
    rcases isFinite_of_assigned (hassigned l hl) (hconforms.hidden l hl).inRange hv with
      hfinite | ⟨hname, -, hinf⟩
    · exact .inl hfinite
    · exact .inr ⟨hname, hinf⟩
  refine ⟨⟨hinput, hhidden, houtput⟩, fun floats hread => ?_⟩
  rw [Architecture.parse?_render, Architecture.ofJson?_toJson_iff hread]
  constructor
  · rintro ⟨hportable, -⟩ l hl v hv
    exact (hportable.hidden l hl).finite "axis" v hv
  · intro haxes
    refine ⟨⟨hinput, fun l hl => ⟨?_, untyped_of_assigned (hassigned l hl)⟩, houtput⟩, rfl⟩
    intro name v hv
    rcases hhidden l hl name v hv with hfinite | ⟨rfl, -⟩
    · exact hfinite
    · exact haxes l hl v hv

/-- What is computed of a text that compiles is known of its architecture. -/
theorem exists_compileText_of_any {r : RuleTable} {text : String} {p : Architecture → Bool}
    (h : (r.compileText text).toOption.any p = true) :
    ∃ a, r.compileText text = .ok a ∧ p a = true := by
  cases hcompiled : r.compileText text with
  | error e => simp [hcompiled, Except.toOption] at h
  | ok a =>
    rw [hcompiled, Except.toOption, Option.any_some] at h
    exact ⟨a, rfl, h⟩

/-- A layer whose axis is an integer, and whose epsilon is a float that is whole. -/
def wholeEpsilon : String :=
  "neuralnet \x7b input \x7b features = 3; \x7d batch_norm \x7b axis = -1; epsilon = 1.0; \x7d"
    ++ " output \x7b \x7d \x7d"

theorem handover_wholeEpsilon : ∃ a,
    RuleTable.standard.compileText wholeEpsilon = .ok a ∧
      Architecture.parse? .arithmetic a.render = some a := by
  have hcompiled : (RuleTable.standard.compileText wholeEpsilon).toOption.any (fun a =>
      a.floatValues.all (fun x => Json.ReadsBack .arithmetic x) &&
        a.hidden.all fun l => l.params["axis"]?.all ParamValue.isFinite) = true := by
    decide +kernel
  obtain ⟨a, ha, hall⟩ := exists_compileText_of_any hcompiled
  rw [Bool.and_eq_true, List.all_eq_true, List.all_eq_true] at hall
  have hread : ∀ x ∈ a.floatValues, x.isFinite = true → Json.ReadsBack .arithmetic x :=
    fun x hx _ => of_decide_eq_true (hall.1 x hx)
  have haxes : ∀ l ∈ a.hidden, ∀ v, l.params["axis"]? = some v → v.isFinite = true :=
    fun l hl => (Option.all_eq_true _ _).1 (hall.2 l hl)
  exact ⟨a, ha, ((handover_of_compileText wholeEpsilon a ha).2 .arithmetic hread).2 haxes⟩

/-- An axis that is a number beyond all floats. -/
def hugeAxis : String :=
  "neuralnet \x7b input \x7b \x7d batch_norm \x7b axis = 1e999; \x7d output \x7b \x7d \x7d"

/-- It compiles to an infinity alone, and then no reader of floats helps: the JSON of the
architecture is not read. -/
theorem parse?_render_hugeAxis : ¬ ∀ (text : String) (a : Architecture),
    RuleTable.standard.compileText text = .ok a →
      ∃ floats : Json.FloatReader, Architecture.parse? floats a.render = some a := by
  intro h
  have hcompiled : (RuleTable.standard.compileText hugeAxis).toOption.any (fun a =>
      a.floatValues.all (fun x => !x.isFinite) &&
        a.hidden.any fun l => l.params["axis"]?.any fun v => !v.isFinite) = true := by
    decide +kernel
  obtain ⟨a, ha, hall⟩ := exists_compileText_of_any hcompiled
  rw [Bool.and_eq_true, List.all_eq_true, List.any_eq_true] at hall
  obtain ⟨hinfinities, l, hl, haxis⟩ := hall
  obtain ⟨v, hv, hinfinite⟩ := (Option.any_eq_true _ _).1 haxis
  obtain ⟨floats, hread⟩ := h hugeAxis a ha
  have hnothing : ∀ x ∈ a.floatValues, x.isFinite = true → Json.ReadsBack floats x := by
    intro x hx hfinite
    have hinfinity := hinfinities x hx
    rw [hfinite] at hinfinity
    exact Bool.noConfusion hinfinity
  rw [Architecture.parse?_render, Architecture.ofJson?_toJson_iff hnothing] at hread
  rw [(hread.1.hidden l hl).finite "axis" v hv] at hinfinite
  exact Bool.noConfusion hinfinite

end NeuralArch.Meaning
