import NeuralArch.Architecture.Exchange
import NeuralArch.Json.Float
import NeuralArch.Proofs.Json.Reading
import NeuralArch.Proofs.Number.Shortest

/-!
# Architectures that are handed over as JSON

What is printed of an architecture is read as that architecture, or not at all.
It is not read if a float is no number, since that is printed as `null`, nor if a
hidden layer has a parameter with the name that its type goes by.

A printed value shows what it is: an integer has digits alone, a float has a point
or a power of ten, a text has quotes, a list has brackets.  The digits of a float
determine it too, but it takes a reader that finds the nearest float to see that:
what is read back is said for a reader of floats that reads back the floats of the
architecture.

* `Json.ReadsBack` — what is asked of a reader of floats; `Json.readsBack_exact` says
  that the nearest float will do.
* `AllFinite`, `Portable` — what it takes to be handed over.
* `ofJson?_toJson_iff` — values, parameters, layers and architectures, read back.
* `parse?_render` — reading a printed architecture is reading its JSON value.
* `parse?_render_iff` — an architecture is read back exactly if it is portable.
-/

namespace NeuralArch

open Number

/-! ## Readers along lists and maps -/

/-- A reader that takes what satisfies a condition, and nothing else, does so along a list. -/
theorem mapM_eq_some_iff {α β : Type} {read : α → Option β} {p : α → Prop} {f : α → β}
    {l : List α} (h : ∀ a ∈ l, ∀ b, read a = some b ↔ p a ∧ b = f a) {bs : List β} :
    l.mapM read = some bs ↔ (∀ a ∈ l, p a) ∧ bs = l.map f := by
  induction l generalizing bs with
  | nil => simp [eq_comm]
  | cons a as ih =>
    have htail := @ih fun b hb => h b (List.mem_cons_of_mem _ hb)
    have hhead := h a (List.mem_cons_self ..)
    rw [List.mapM_cons]
    simp only [Option.bind_eq_bind, Option.bind_eq_some_iff, hhead, htail]
    constructor
    · rintro ⟨b, ⟨ha, rfl⟩, bs', ⟨has, rfl⟩, hbs⟩
      exact ⟨List.forall_mem_cons.2 ⟨ha, has⟩, (Option.some.inj hbs).symm⟩
    · rintro ⟨hall, rfl⟩
      obtain ⟨ha, has⟩ := List.forall_mem_cons.1 hall
      exact ⟨_, ⟨ha, rfl⟩, _, ⟨has, rfl⟩, rfl⟩

theorem mapM_map_eq_some {α β : Type} {write : α → β} {read : β → Option α}
    (h : ∀ a, read (write a) = some a) (l : List α) : (l.map write).mapM read = some l := by
  have hread : ∀ a ∈ l, ∀ b, (read ∘ write) a = some b ↔ True ∧ b = id a := by
    intro a _ b
    rw [Function.comp_apply, h]
    simp [eq_comm]
  rw [List.mapM_map, mapM_eq_some_iff hread]
  exact ⟨fun _ _ => trivial, l.map_id.symm⟩

/-- The entries of a map make up the map, in whatever order they are. -/
theorem ofList_of_perm {α : Type} {m : Std.ExtTreeMap String α} {l : List (String × α)}
    (h : l.Perm m.toList) : Std.ExtTreeMap.ofList l = m := by
  have hdistinct : l.Pairwise fun a b => ¬ compare a.1 b.1 = .eq :=
    h.symm.pairwise Std.ExtTreeMap.distinct_keys_toList fun hne heq =>
      hne (Std.OrientedCmp.eq_symm heq)
  apply Std.ExtTreeMap.ext_getElem?
  intro k
  cases hk : m[k]? with
  | some a =>
    exact Std.ExtTreeMap.getElem?_ofList_of_mem Std.ReflCmp.compare_self hdistinct
      (h.mem_iff.2 (Std.ExtTreeMap.mem_toList_iff_getElem?_eq_some.2 hk))
  | none =>
    apply Std.ExtTreeMap.getElem?_ofList_of_contains_eq_false
    rw [← Bool.not_eq_true, List.contains_iff_mem, List.mem_map]
    rintro ⟨⟨k', a⟩, ha, rfl⟩
    rw [h.mem_iff, Std.ExtTreeMap.mem_toList_iff_getElem?_eq_some, hk] at ha
    exact absurd ha (by simp)

theorem ofList_toList {α : Type} (m : Std.ExtTreeMap String α) :
    Std.ExtTreeMap.ofList m.toList = m :=
  ofList_of_perm (.refl _)

/-! ## Numbers in JSON -/

namespace Json

/-- The numeral of an integer has digits alone, and is never `-0`. -/
theorem integer?_ofInt64 (i : Int64) : integer? (Numeral.ofInt i.toInt) = some i.toInt := by
  have hword : leastInteger ≤ i.toInt ∧ i.toInt < wordCount :=
    ⟨i.le_toInt, i.toInt_lt.trans (by decide)⟩
  have hplain : (Numeral.ofInt i.toInt).isInteger = true := rfl
  have hzero : ((Numeral.ofInt i.toInt).negative && i.toInt == 0) = false := by
    show (decide (i.toInt < 0) && i.toInt == 0) = false
    rw [Bool.and_eq_false_iff, decide_eq_false_iff_not, beq_eq_false_iff_ne]
    omega
  rw [integer?, Numeral.toInt_ofInt, hplain, hzero]
  simp only [Bool.not_false, Bool.and_self, if_true]
  exact if_pos hword

/-- An integer is read as it was. -/
theorem asInt64?_ofInt64 (i : Int64) : (ofInt64 i).asInt64? = some i := by
  have hinteger : leastInteger ≤ i.toInt ∧ i.toInt < -leastInteger := ⟨i.le_toInt, i.toInt_lt⟩
  rw [asInt64?, ofInt64, asInt?, integer?_ofInt64, Option.bind_some, toInt64?, if_pos hinteger,
    Int64.ofInt_toInt]

/-- A float is printed with a point or a power of ten. -/
theorem isInteger_layout (negative : Bool) (m : Magnitude) :
    (floatStyle.layout negative m).isInteger = false := by
  have hplain : ∀ d k, (plain negative true d k).isInteger = false := by
    intro d k
    by_cases hscale : 0 ≤ k
    · rw [plain, if_pos hscale]
      rfl
    · obtain ⟨places, rfl⟩ : ∃ places : Nat, k = -(places : Int) := ⟨(-k).toNat, by omega⟩
      obtain ⟨whole, fraction, hplain, -, hfraction, -⟩ :=
        exists_plain negative true (by omega : 0 < places) d
      rw [hplain, Numeral.isInteger, Lexing.isEmpty_of_isDigits hfraction]
      rfl
  unfold FloatStyle.layout
  dsimp only
  split
  · exact hplain _ _
  · rw [scientific, Numeral.isInteger, Option.isNone_some, Bool.and_false]

/-- The numeral that a float is printed as is none of an integer. -/
theorem integer?_of_numeral? {x : Float} {n : Numeral} (h : floatStyle.numeral? x = some n) :
    integer? n = none := by
  rw [FloatStyle.numeral?] at h
  split at h
  · obtain rfl := Option.some.inj h
    rw [integer?, isInteger_layout]
    rfl
  · cases h

/-- Whether a reader takes the numeral that is printed of a float for that float. -/
def ReadsBack (floats : FloatReader) (x : Float) : Prop :=
  (floatStyle.numeral? x).bind floats = some x

instance (floats : FloatReader) (x : Float) : Decidable (ReadsBack floats x) :=
  inferInstanceAs (Decidable (_ = _))

/-- The reader that takes the nearest float. -/
def FloatReader.exact : FloatReader := fun n =>
  if n.toFloat.isFinite then some n.toFloat else none

/-- The digits that are printed of a float determine it. -/
theorem readsBack_exact {x : Float} (hx : x.isFinite = true) : ReadsBack .exact x := by
  obtain ⟨negative, m, hclass⟩ := isFinite_iff_class.1 hx
  have hnearest := toFloat_layout hclass floatStyle
  rw [ReadsBack, FloatStyle.numeral?, hclass, Option.bind_some, FloatReader.exact, hnearest,
    if_pos hx]

/-- Seventeen digits are more than arithmetic on floats can tell apart. -/
example : ReadsBack .arithmetic 0.1 ∧ ¬ ReadsBack .arithmetic 51.248178375505404 := by
  decide +kernel

theorem exists_ofFloat {floats : FloatReader} {x : Float} (h : ReadsBack floats x) :
    ∃ n : Numeral, ofFloat x = number n ∧ integer? n = none ∧ floats n = some x := by
  obtain ⟨n, hn, hfloat⟩ := Option.bind_eq_some_iff.1 h
  refine ⟨n, ?_, integer?_of_numeral? hn, hfloat⟩
  rw [ofFloat, hn]
  rfl

/-- What is no number is printed as `null`. -/
theorem ofFloat_of_not_finite {x : Float} (hx : ¬ x.isFinite = true) : ofFloat x = .null := by
  rw [ofFloat, FloatStyle.numeral?]
  cases hclass : FloatClass.of x with
  | nan => rfl
  | infinite _ => rfl
  | finite negative m => exact absurd (isFinite_iff_class.2 ⟨negative, m, hclass⟩) hx

theorem asFloat?_ofFloat {floats : FloatReader} {x : Float} (h : ReadsBack floats x) :
    (ofFloat x).asFloat? floats = some x := by
  obtain ⟨n, hn, hinteger, hfloat⟩ := exists_ofFloat h
  rw [hn, asFloat?, float?, hinteger, hfloat]
  rfl

theorem wellFormed_ofFloat (x : Float) : (ofFloat x).WellFormed := by
  rw [ofFloat, FloatStyle.numeral?]
  cases FloatClass.of x with
  | nan => trivial
  | infinite _ => trivial
  | finite negative m => exact wellFormed_layout _ _ _

theorem asMembers?_ofMembers (members : List (String × Json)) :
    (ofMembers members).asMembers? = some members :=
  @mapM_map_eq_some (String × Json) (Option String × Json) (fun m => (some m.1, m.2))
    (fun m => m.1.map fun k => (k, m.2)) (fun _ => rfl) members

theorem record?_ofMembers (members : List (String × Json)) (names : List String) :
    (ofMembers members).record? names = names.mapM (field? members) := by
  rw [record?]
  · rw [asMembers?_ofMembers, Option.bind_some]
  · intro items
    exact Json.noConfusion

theorem wellFormed_ofMembers {members : List (String × Json)}
    (h : ∀ m ∈ members, m.2.WellFormed) : (ofMembers members).WellFormed := by
  rw [ofMembers, WellFormed, wellFormedMembers_iff]
  intro m hm
  obtain ⟨member, hmember, rfl⟩ := List.mem_map.1 hm
  exact h member hmember

end Json

variable {floats : Json.FloatReader}

/-! ## Values -/

namespace ParamValue

/-- Whether a value can be written as JSON: a float has to be finite. -/
def isFinite : ParamValue → Bool
  | float x => x.isFinite
  | _ => true

/-- The float of a value that is one. -/
def float? : ParamValue → Option Float
  | float x => some x
  | _ => none

theorem ofJson?_toJson_float {x : Float} (h : Json.ReadsBack floats x) :
    ofJson? floats (toJson (float x)) = some (float x) := by
  have hfloat := Json.asFloat?_ofFloat h
  obtain ⟨n, hn, hinteger, -⟩ := Json.exists_ofFloat h
  have hint : Json.asInt64? (.number n) = none := by
    rw [Json.asInt64?, Json.asInt?, hinteger]
    rfl
  rw [hn] at hfloat
  rw [toJson, hn, ofJson?]
  simp only [hint, hfloat]
  rfl

/-- What is no number is printed as `null`, which is no value. -/
theorem ofJson?_toJson_of_not_finite {x : Float} (hx : ¬ x.isFinite = true) :
    ofJson? floats (toJson (float x)) = none := by
  rw [toJson, Json.ofFloat_of_not_finite hx]
  rfl

/-- A value is read as itself, if it is finite, and otherwise not at all. -/
theorem ofJson?_toJson_iff {v : ParamValue}
    (hread : ∀ x, v.float? = some x → x.isFinite = true → Json.ReadsBack floats x)
    (w : ParamValue) : ofJson? floats v.toJson = some w ↔ v.isFinite = true ∧ w = v := by
  cases v with
  | int i =>
    have hint : Json.asInt64? (.number (Numeral.ofInt i.toInt)) = some i :=
      Json.asInt64?_ofInt64 i
    have hself : ofJson? floats (.number (Numeral.ofInt i.toInt)) = some (int i) := by
      simp only [ofJson?, hint]
    rw [toJson, Json.ofInt64, hself]
    simp [isFinite, eq_comm]
  | float x =>
    by_cases hx : x.isFinite = true
    · rw [ofJson?_toJson_float (hread x rfl hx)]
      simp [isFinite, hx, eq_comm]
    · rw [ofJson?_toJson_of_not_finite hx]
      simp [isFinite, hx]
  | text s =>
    have hself : ofJson? floats (toJson (text s)) = some (text s) := rfl
    rw [hself]
    simp [isFinite, eq_comm]
  | list items =>
    have hitems := mapM_map_eq_some Json.asInt64?_ofInt64 items
    have hself : ofJson? floats (.array (items.map Json.ofInt64)) = some (list items) := by
      simp only [ofJson?, Json.asList?, hitems, Option.map_some]
    rw [toJson, hself]
    simp [isFinite, eq_comm]

theorem wellFormed_toJson (v : ParamValue) : v.toJson.WellFormed := by
  cases v with
  | int i => exact wellFormed_ofInt _
  | float x => exact Json.wellFormed_ofFloat x
  | text s => trivial
  | list items =>
    rw [toJson, Json.WellFormed, Json.wellFormedItems_iff]
    intro j hj
    obtain ⟨i, -, rfl⟩ := List.mem_map.1 hj
    exact wellFormed_ofInt _

end ParamValue

/-! ## Parameters -/

namespace ParamMap

/-- Whether all values of a map can be written as JSON. -/
def AllFinite (params : ParamMap) : Prop :=
  ∀ (name : String) (v : ParamValue), params[name]? = some v → v.isFinite = true

theorem allFinite_iff {params : ParamMap} :
    AllFinite params ↔ ∀ m ∈ params.toList, m.2.isFinite = true := by
  constructor
  · rintro h ⟨name, v⟩ hm
    exact h name v (Std.ExtTreeMap.mem_toList_iff_getElem?_eq_some.1 hm)
  · intro h name v hv
    exact h (name, v) (Std.ExtTreeMap.mem_toList_iff_getElem?_eq_some.2 hv)

/-- The floats among the values of a map. -/
def floatValues (params : ParamMap) : List Float := params.toList.filterMap (·.2.float?)

/-- The members of a map are read as the map, if its values are finite, and otherwise not at
all. -/
theorem readMembers?_toMembers_iff {params : ParamMap}
    (hread : ∀ x ∈ floatValues params, x.isFinite = true → Json.ReadsBack floats x)
    (params' : ParamMap) :
    Json.readMembers? (ParamValue.ofJson? floats) params.toMembers = some params' ↔
      AllFinite params ∧ params' = params := by
  have hmember : ∀ m ∈ params.toList, ∀ m' : String × ParamValue,
      (ParamValue.ofJson? floats m.2.toJson).map (fun v => (m.1, v)) = some m' ↔
        m.2.isFinite = true ∧ m' = id m := by
    rintro ⟨name, v⟩ hm ⟨name', v'⟩
    have hvalue : ∀ x, v.float? = some x → x.isFinite = true → Json.ReadsBack floats x :=
      fun x hx => hread x (List.mem_filterMap.2 ⟨_, hm, hx⟩)
    simp only [Option.map_eq_some_iff, ParamValue.ofJson?_toJson_iff hvalue]
    constructor
    · rintro ⟨w, ⟨hfinite, rfl⟩, heq⟩
      exact ⟨hfinite, heq.symm⟩
    · rintro ⟨hfinite, heq⟩
      exact ⟨v, ⟨hfinite, rfl⟩, heq.symm⟩
  rw [Json.readMembers?, toMembers, List.mapM_map, Option.map_eq_some_iff, allFinite_iff]
  constructor
  · rintro ⟨ms, hms, rfl⟩
    obtain ⟨hfinite, rfl⟩ := (mapM_eq_some_iff hmember).1 hms
    exact ⟨hfinite, by rw [List.map_id, ofList_toList]⟩
  · rintro ⟨hfinite, rfl⟩
    exact ⟨_, (mapM_eq_some_iff hmember).2 ⟨hfinite, rfl⟩, by rw [List.map_id, ofList_toList]⟩

theorem ofJson?_toMembers_iff {params : ParamMap}
    (hread : ∀ x ∈ floatValues params, x.isFinite = true → Json.ReadsBack floats x)
    (params' : ParamMap) :
    ofJson? floats (Json.ofMembers params.toMembers) = some params' ↔
      AllFinite params ∧ params' = params := by
  rw [ofJson?, Json.asMap?, Json.asMembers?_ofMembers, Option.bind_some,
    readMembers?_toMembers_iff hread]

theorem wellFormed_ofMembers (params : ParamMap) :
    (Json.ofMembers params.toMembers).WellFormed := by
  apply Json.wellFormed_ofMembers
  intro m hm
  obtain ⟨⟨name, v⟩, -, rfl⟩ := List.mem_map.1 hm
  exact v.wellFormed_toJson

end ParamMap

/-! ## Layers -/

namespace Layer

/-- Whether a hidden layer can be written as JSON: its type must keep its name to itself. -/
structure Portable (l : Layer) : Prop where
  finite : ParamMap.AllFinite l.params
  untyped : "type" ∉ l.params

/-- No parameter goes by the name of the type, if none has the name. -/
theorem filter_type (params : ParamMap) :
    (ParamMap.toMembers params).filter (·.1 == "type") = [] ↔ "type" ∉ params := by
  have hmem : "type" ∈ params ↔ ∃ v, ("type", v) ∈ params.toList := by
    rw [Std.ExtTreeMap.mem_iff_isSome_getElem?, Option.isSome_iff_exists]
    simp only [Std.ExtTreeMap.mem_toList_iff_getElem?_eq_some]
  rw [List.filter_eq_nil_iff, hmem, ParamMap.toMembers]
  constructor
  · rintro h ⟨v, hv⟩
    exact h _ (List.mem_map_of_mem hv) (beq_self_eq_true _)
  · rintro h m hm htype
    obtain ⟨⟨name, v⟩, hv, rfl⟩ := List.mem_map.1 hm
    obtain rfl := eq_of_beq htype
    exact h ⟨v, hv⟩

theorem ofJson?_toJson_iff {l : Layer}
    (hread : ∀ x ∈ ParamMap.floatValues l.params, x.isFinite = true → Json.ReadsBack floats x)
    (l' : Layer) : ofJson? floats l.toJson = some l' ↔ l.Portable ∧ l' = l := by
  have hmembers := Json.asMembers?_ofMembers
    (("type", Json.ofText l.type) :: ParamMap.toMembers l.params)
  rw [ofJson?, toJson, hmembers]
  simp only [Option.bind_eq_bind, Option.bind_some, Json.field?, List.filter_cons, beq_self_eq_true,
    if_true, bne_self_eq_false, Bool.false_eq_true, if_false]
  by_cases htype : "type" ∈ l.params
  · -- There are two members of the name, so no type is read.
    obtain ⟨m, ms, hms⟩ :=
      List.exists_cons_of_ne_nil (mt (filter_type l.params).1 (not_not.2 htype))
    rw [hms]
    constructor
    · intro h
      exact absurd h (by simp)
    · rintro ⟨hportable, -⟩
      exact absurd htype hportable.untyped
  · have hnone := (filter_type l.params).2 htype
    have hrest : (ParamMap.toMembers l.params).filter (·.1 != "type") =
        ParamMap.toMembers l.params := by
      rw [List.filter_eq_self]
      intro m hm
      have hne := List.filter_eq_nil_iff.1 hnone m hm
      exact bne_iff_ne.2 fun heq => hne (beq_iff_eq.2 heq)
    rw [hnone, hrest]
    simp only [Option.bind_some, Json.ofText, Json.asText?, Option.bind_eq_some_iff,
      ParamMap.readMembers?_toMembers_iff hread]
    constructor
    · rintro ⟨params, ⟨hfinite, rfl⟩, heq⟩
      exact ⟨⟨hfinite, htype⟩, (Option.some.inj heq).symm⟩
    · rintro ⟨⟨hfinite, -⟩, rfl⟩
      exact ⟨_, ⟨hfinite, rfl⟩, rfl⟩

theorem wellFormed_toJson (l : Layer) : l.toJson.WellFormed := by
  apply Json.wellFormed_ofMembers
  intro m hm
  obtain rfl | hm := List.mem_cons.1 hm
  · trivial
  · obtain ⟨⟨name, v⟩, -, rfl⟩ := List.mem_map.1 hm
    exact v.wellFormed_toJson

end Layer

/-! ## Architectures -/

namespace Architecture

/-- Whether an architecture can be handed over as JSON. -/
structure Portable (a : Architecture) : Prop where
  input : ParamMap.AllFinite a.input
  hidden : ∀ l ∈ a.hidden, l.Portable
  output : ParamMap.AllFinite a.output

/-- The floats among the values of an architecture. -/
def floatValues (a : Architecture) : List Float :=
  ParamMap.floatValues a.input ++ a.hidden.flatMap (ParamMap.floatValues ·.params) ++
    ParamMap.floatValues a.output

theorem ofJson?_toJson_iff {a : Architecture}
    (hread : ∀ x ∈ a.floatValues, x.isFinite = true → Json.ReadsBack floats x)
    (a' : Architecture) : ofJson? floats a.toJson = some a' ↔ a.Portable ∧ a' = a := by
  simp only [floatValues, List.forall_mem_append] at hread
  obtain ⟨⟨hinput, hhidden⟩, houtput⟩ := hread
  have hlayer : ∀ l ∈ a.hidden, ∀ l' : Layer,
      (Layer.ofJson? floats ∘ Layer.toJson) l = some l' ↔ l.Portable ∧ l' = id l :=
    fun l hl l' => Layer.ofJson?_toJson_iff
      (fun x hx => hhidden x (List.mem_flatMap_of_mem hl hx)) l'
  have hrecord : a.toJson.record? ["input_layer", "hidden_layers", "output_layer"] =
      some [some (Json.ofMembers (ParamMap.toMembers a.input)),
        some (.array (a.hidden.map Layer.toJson)),
        some (Json.ofMembers (ParamMap.toMembers a.output))] := by
    rw [toJson, Json.record?_ofMembers]
    rfl
  have hlayers (ls : List Layer) :
      (Json.array (a.hidden.map Layer.toJson)).asList? (Layer.ofJson? floats) = some ls ↔
        (∀ l ∈ a.hidden, l.Portable) ∧ ls = a.hidden := by
    rw [Json.asList?, List.mapM_map, mapM_eq_some_iff hlayer, List.map_id]
  rw [ofJson?, hrecord]
  simp only [Option.bind_eq_bind, Option.bind_eq_some_iff, ParamMap.ofJson?_toMembers_iff hinput,
    ParamMap.ofJson?_toMembers_iff houtput, hlayers]
  constructor
  · rintro ⟨input, ⟨hinput, rfl⟩, hidden, ⟨hhidden, rfl⟩, output, ⟨houtput, rfl⟩, heq⟩
    exact ⟨⟨hinput, hhidden, houtput⟩, (Option.some.inj heq).symm⟩
  · rintro ⟨⟨hinput, hhidden, houtput⟩, rfl⟩
    exact ⟨_, ⟨hinput, rfl⟩, _, ⟨hhidden, rfl⟩, _, ⟨houtput, rfl⟩, rfl⟩

theorem wellFormed_toJson (a : Architecture) : a.toJson.WellFormed := by
  refine Json.wellFormed_ofMembers (List.forall_mem_cons.2 ⟨?_, List.forall_mem_cons.2 ⟨?_,
    List.forall_mem_singleton.2 ?_⟩⟩)
  · exact ParamMap.wellFormed_ofMembers a.input
  · rw [Json.WellFormed, Json.wellFormedItems_iff]
    intro j hj
    obtain ⟨l, -, rfl⟩ := List.mem_map.1 hj
    exact l.wellFormed_toJson
  · exact ParamMap.wellFormed_ofMembers a.output

theorem parse?_render (floats : Json.FloatReader) (a : Architecture) :
    parse? floats a.render = ofJson? floats a.toJson := by
  rw [parse?, render, Json.parse?_text a.wellFormed_toJson, Option.bind_some]

/-- What is printed of an architecture is read as the architecture, if it is portable, and
otherwise not at all.  This is so for every reader of floats that reads back those the architecture
has. -/
theorem parse?_render_iff (floats : Json.FloatReader) (a : Architecture)
    (hread : ∀ x ∈ a.floatValues, x.isFinite = true → Json.ReadsBack floats x)
    (a' : Architecture) : parse? floats a.render = some a' ↔ a.Portable ∧ a' = a := by
  rw [parse?_render, ofJson?_toJson_iff hread]

/-- Values of every kind: floats that are whole, tiny or a negative zero, and a list of nothing. -/
def assorted : Architecture where
  input := .ofList [("features", ParamValue.int 3), ("scale", .float (-0.0))]
  hidden :=
    [⟨"conv1d", .ofList [("rate", ParamValue.float 1e22), ("padding", .text "same")]⟩,
     ⟨"tcn", .ofList [("dilations", ParamValue.list [1, -2]), ("skips", .list []),
       ("l1", .float 1e-7)]⟩]
  output := .ofList [("units", ParamValue.float 1), ("axis", .int (-1))]

/-- The nearest floats are those that were printed, and arithmetic finds them too. -/
theorem parse?_render_assorted :
    parse? .exact assorted.render = some assorted ∧
      parse? .arithmetic assorted.render = some assorted := by
  have hinput : ∀ m ∈ assorted.input.toList, m.2.isFinite = true := by decide
  have hhidden : ∀ l ∈ assorted.hidden, (∀ m ∈ l.params.toList, m.2.isFinite = true) ∧
      "type" ∉ l.params := by
    decide
  have houtput : ∀ m ∈ assorted.output.toList, m.2.isFinite = true := by decide
  have hportable : assorted.Portable :=
    { input := ParamMap.allFinite_iff.2 hinput
      hidden := fun l hl => ⟨ParamMap.allFinite_iff.2 (hhidden l hl).1, (hhidden l hl).2⟩
      output := ParamMap.allFinite_iff.2 houtput }
  have harithmetic : ∀ x ∈ assorted.floatValues, x.isFinite = true →
      Json.ReadsBack .arithmetic x := by
    decide +kernel
  exact ⟨(parse?_render_iff .exact assorted (fun x _ hx => Json.readsBack_exact hx) assorted).2
      ⟨hportable, rfl⟩,
    (parse?_render_iff .arithmetic assorted harithmetic assorted).2 ⟨hportable, rfl⟩⟩

end Architecture

end NeuralArch
