import NeuralArch.Proofs.Meaning.Visiting
import NeuralArch.Proofs.Number.Extended

/-!
# Stricter and looser tables

A table that knows more layers, admits more parameters and has wider ranges finds
fault with fewer trees.  The walk through a tree depends on the table: a layer of
an unknown type is not looked into, and a parameter that is not admitted is not
range-checked.  So a looser table looks at parts that the stricter one passes
over; but where the stricter one finds nothing it has looked at everything.

* `ParamRange.AsStrictAs`, `RuleTable.AsStrictAs` — ranges and tables that ask for at
  least as much as others.
* `violation?_eq_none_of_asStrictAs` — a number that suits the stricter table.
* `visit_eq_nil_of_asStrictAs` — a tree inside a layer that the stricter table knows.
* `validate_eq_nil_of_asStrictAs` — a whole tree.
-/

namespace NeuralArch

/-- A range asks for at least as much as another one of its kind: it begins no earlier and ends no
later.  Bounds that can be compared are numbers or infinities. -/
inductive ParamRange.AsStrictAs : ParamRange → ParamRange → Prop
  | int {min min' : Int64} (hmin : min' ≤ min) : AsStrictAs (int min) (int min')
  | float {min min' : Float} {max max' : Option Float} (hmin : min' ≤ min)
      (hmax : (float min max).upper ≤ (float min' max').upper) :
      AsStrictAs (float min max) (float min' max')

/-- A table asks for at least as much as another: the other knows its layer types and admits the
parameters that it admits, and has no range but for parameters that have one here, which is at
least as strict. -/
structure RuleTable.AsStrictAs (r r' : RuleTable) : Prop where
  layers : ∀ layer allowed, r.allowed? layer = some allowed →
    ∃ allowed', r'.allowed? layer = some allowed' ∧ ∀ p ∈ allowed, p ∈ allowed'
  ranges : ∀ param range', r'.range? param = some range' →
    ∃ range, r.range? param = some range ∧ range.AsStrictAs range'

namespace Meaning

open NeuralArch.Tree
open Number

variable {r r' : RuleTable}

/-! ## Numbers -/

/-- A number in a range is in every looser one. -/
theorem violation?_eq_none_of_asStrictAs (h : r.AsStrictAs r') {param text : String}
    (hvalid : r.violation? param text = none) : r'.violation? param text = none := by
  rw [RuleTable.violation?]
  cases hrange' : r'.range? param with
  | none => rfl
  | some range' =>
    obtain ⟨range, hrange, hstrict⟩ := h.ranges param range' hrange'
    rw [RuleTable.violation?, hrange] at hvalid
    cases hstrict with
    | @int min min' hmin =>
      cases hv : readInt64? text with
      | none => simp [hv] at hvalid
      | some v =>
        have hle : min ≤ v := by simpa [hv] using hvalid
        simp [Int64.le_trans hmin hle]
    | @float min min' max max' hmin hmax =>
      cases hv : readFloat? text with
      | none => simp [hv] at hvalid
      | some v =>
        obtain ⟨hle, hlt⟩ : min ≤ v ∧ v < (ParamRange.float min max).upper := by
          simpa [hv] using hvalid
        simp [float_le_trans hmin hle, float_lt_of_lt_of_le hlt hmax]

theorem checkRange_eq_nil_iff {name : Token} {value : Option Token} :
    r.checkRange name value = [] ↔ ∀ v ∈ value, r.violation? name.value v.value = none := by
  cases value with
  | none => simp [RuleTable.checkRange]
  | some v =>
    rw [RuleTable.checkRange]
    cases h : r.violation? name.value v.value <;> simp [h]

theorem checkRange_eq_nil_of_asStrictAs (h : r.AsStrictAs r') {name : Token}
    {value : Option Token} (hvalid : r.checkRange name value = []) :
    r'.checkRange name value = [] := by
  rw [checkRange_eq_nil_iff] at hvalid ⊢
  exact fun v hv => violation?_eq_none_of_asStrictAs h (hvalid v hv)

/-! ## Parameters -/

theorem checkParam_eq_nil_of_asStrictAs (h : r.AsStrictAs r') {cs : List Tree}
    (hvalid : r.checkParam cs = []) : r'.checkParam cs = [] := by
  rw [RuleTable.checkParam] at hvalid ⊢
  cases hparts : RuleTable.paramParts? cs with
  | none => rfl
  | some parts =>
    rw [hparts] at hvalid
    exact checkRange_eq_nil_of_asStrictAs h hvalid

/-- A parameter without fault in a known layer is admitted, so it is range-checked by both
tables. -/
theorem checkLayerParam_eq_nil_of_asStrictAs (h : r.AsStrictAs r') {layer : String}
    (hknown : (r.allowed? layer).isSome = true) {cs : List Tree}
    (hvalid : r.checkLayerParam layer cs = []) : r'.checkLayerParam layer cs = [] := by
  obtain ⟨allowed, hallowed⟩ := Option.isSome_iff_exists.1 hknown
  obtain ⟨allowed', hallowed', hmore⟩ := h.layers layer allowed hallowed
  rw [RuleTable.checkLayerParam, hallowed] at hvalid
  rw [RuleTable.checkLayerParam, hallowed']
  cases hparts : RuleTable.paramParts? cs with
  | none => rfl
  | some parts =>
    obtain ⟨name, value⟩ := parts
    rw [hparts] at hvalid
    dsimp only at hvalid ⊢
    by_cases hname : allowed.contains name.value = true
    · rw [if_pos hname] at hvalid
      have hname' : allowed'.contains name.value = true :=
        Std.ExtTreeSet.contains_iff_mem.2 (hmore _ (Std.ExtTreeSet.contains_iff_mem.1 hname))
      rw [if_pos hname']
      exact checkRange_eq_nil_of_asStrictAs h hvalid
    · rw [if_neg hname] at hvalid
      exact absurd hvalid (List.cons_ne_nil _ _)

/-! ## Trees -/

/-- Whether a table knows the type of the layer that a tree stands in, if it stands in one. -/
def Known (r : RuleTable) (layer : Option String) : Prop :=
  ∀ type ∈ layer, (r.allowed? type).isSome = true

mutual

/-- The walk enters no layer whose type the stricter table does not know, so the type of the
layer that a tree stands in is always known. -/
theorem visit_eq_nil_of_asStrictAs (h : r.AsStrictAs r') {layer : Option String}
    (hknown : Known r layer) : ∀ t : Tree, r.visit layer t = [] → r'.visit layer t = []
  | leaf t, _ => visit_leaf r' layer t
  | node kind cs, hvalid => by
    have hall : ∀ {layer}, Known r layer → r.visitAll layer cs = [] →
        r'.visitAll layer cs = [] :=
      fun hknown => visitAll_eq_nil_of_asStrictAs h hknown cs
    cases kind with
    | hiddenLayer =>
      rw [RuleTable.visit] at hvalid ⊢
      cases htype : (findInList? .layerType cs).bind firstToken? with
      | none =>
        rw [htype] at hvalid
        exact hall (fun _ hnone => absurd hnone (by simp)) hvalid
      | some type =>
        rw [htype] at hvalid
        dsimp only at hvalid ⊢
        cases hallowed : r.allowed? type.value with
        | none =>
          rw [hallowed] at hvalid
          exact absurd hvalid (List.cons_ne_nil _ _)
        | some allowed =>
          obtain ⟨allowed', hallowed', -⟩ := h.layers type.value allowed hallowed
          have htypeKnown : Known r (some type.value) := by
            intro name hname
            obtain rfl := Option.mem_some_iff.1 hname
            rw [hallowed]
            rfl
          rw [hallowed] at hvalid
          rw [hallowed']
          exact hall htypeKnown hvalid
    | layerParam =>
      cases layer with
      | none => rw [RuleTable.visit]
      | some layer =>
        rw [RuleTable.visit] at hvalid ⊢
        exact checkLayerParam_eq_nil_of_asStrictAs h (hknown layer rfl) hvalid
    | inputParam =>
      rw [RuleTable.visit] at hvalid ⊢
      exact checkParam_eq_nil_of_asStrictAs h hvalid
    | outputParam =>
      rw [RuleTable.visit] at hvalid ⊢
      exact checkParam_eq_nil_of_asStrictAs h hvalid
    | _ =>
      rw [RuleTable.visit] at hvalid ⊢
      · exact hall hknown hvalid
      all_goals simp

theorem visitAll_eq_nil_of_asStrictAs (h : r.AsStrictAs r') {layer : Option String}
    (hknown : Known r layer) :
    ∀ ts : List Tree, r.visitAll layer ts = [] → r'.visitAll layer ts = []
  | [], _ => by rw [RuleTable.visitAll]
  | t :: ts, hvalid => by
    rw [RuleTable.visitAll, List.append_eq_nil_iff] at hvalid ⊢
    exact ⟨visit_eq_nil_of_asStrictAs h hknown t hvalid.1,
      visitAll_eq_nil_of_asStrictAs h hknown ts hvalid.2⟩

end

/-- Where a table has nothing against a tree, well-formed or not, no looser table has. -/
theorem validate_eq_nil_of_asStrictAs (h : r.AsStrictAs r') (t : Tree)
    (hvalid : r.validate t = []) : r'.validate t = [] :=
  visit_eq_nil_of_asStrictAs h (fun _ hnone => absurd hnone (by simp)) t hvalid

/-- A table of one layer type, with two narrow ranges. -/
def narrowTable : RuleTable :=
  ((RuleTable.empty.allow "dense" ["units", "dropout"]).setRange "units" (.int 8)).setRange
    "dropout" (.float 0.25 (some 0.5))

/-- A table that knows another layer type and another parameter, and has wider ranges. -/
def wideTable : RuleTable :=
  (((RuleTable.empty.allow "lstm" []).allow "dense" ["units", "dropout", "l1"]).setRange "units"
    (.int 1)).setRange "dropout" (.float 0 none)

/-- A parameter outside every layer, and a layer with a network and an output parameter in it. -/
def misshapenTree : Tree :=
  node .ann
    [node .layerParam
      [leaf ⟨.param .axis, "axis", ⟨1, 1⟩⟩, leaf ⟨.equal, "=", ⟨1, 5⟩⟩, leaf ⟨.int, "0", ⟨1, 6⟩⟩],
     node .hiddenLayer
      [node .layerType [leaf ⟨.layer .dense, "dense", ⟨2, 1⟩⟩],
       node .ann
        [node .layerParam
          [leaf ⟨.param .units, "units", ⟨2, 7⟩⟩, leaf ⟨.equal, "=", ⟨2, 12⟩⟩,
           leaf ⟨.int, "16", ⟨2, 13⟩⟩]],
       node .outputParam
        [leaf ⟨.param .dropout, "dropout", ⟨3, 1⟩⟩, leaf ⟨.equal, "=", ⟨3, 8⟩⟩,
         leaf ⟨.float, "0.25", ⟨3, 9⟩⟩]]]

theorem narrowTable_asStrictAs : narrowTable.AsStrictAs wideTable where
  layers := by
    intro layer allowed h
    simp only [narrowTable, RuleTable.allowed?_setRange, RuleTable.allowed?_allow] at h
    split at h
    · subst layer
      obtain rfl := Option.some.inj h
      have hwide : wideTable.allowed? "dense" =
          some (((RuleTable.empty.allowed? "dense").getD ∅).insertMany
            ["units", "dropout", "l1"]) := by
        simp [wideTable, RuleTable.allowed?_allow]
      refine ⟨_, hwide, fun p hp => ?_⟩
      rw [Std.ExtTreeSet.mem_insertMany_list, List.contains_eq_mem] at hp ⊢
      simp only [decide_eq_true_eq, List.mem_cons, List.not_mem_nil, or_false] at hp ⊢
      exact hp.imp_right (·.imp_right .inl)
    · simp [RuleTable.allowed?, RuleTable.empty] at h
  ranges := by
    intro param range' h
    simp only [wideTable, RuleTable.range?_setRange, RuleTable.range?_allow] at h
    split at h
    · subst param
      obtain rfl := Option.some.inj h
      exact ⟨.float 0.25 (some 0.5), by simp [narrowTable, RuleTable.range?_setRange],
        .float rfl rfl⟩
    · split at h
      · subst param
        obtain rfl := Option.some.inj h
        exact ⟨.int 8, by simp [narrowTable, RuleTable.range?_setRange], .int (by decide)⟩
      · simp [RuleTable.range?, RuleTable.empty] at h

theorem validate_misshapenTree :
    narrowTable.validate misshapenTree = [] ∧ wideTable.validate misshapenTree = [] := by
  have hvalid : narrowTable.validate misshapenTree = [] := rfl
  exact ⟨hvalid, validate_eq_nil_of_asStrictAs narrowTable_asStrictAs misshapenTree hvalid⟩

end Meaning

end NeuralArch
