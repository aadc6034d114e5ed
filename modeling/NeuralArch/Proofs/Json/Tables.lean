import NeuralArch.Proofs.Json.Exchange
import NeuralArch.Rules.Exchange
import NeuralArch.Validation

/-!
# Rule tables that are written as JSON

The maps and sets of a table have no order, so a table may be written in many ways.
Each of them is read as the table, if its bounds are finite and the reader of floats
reads them back.  A range without a maximum says so by `null`, and one with an infinite
maximum would say the same.

The least integer and the least float of a range are members of the same name.  Which
of the two it is, the tag says, and a record with a tag is read only if the reader of
floats takes every number in it.

* `Json.tagged?_ofMembers` — a record that is told by its tag.
* `ParamRange.ofJson?_toJson` — ranges, read back.
* `Listing`, `Lists` — the entries of a table in some order.
* `AllFinite` — tables whose bounds are finite, as the built-in one's are; changes keep it.
* `parse?_listing` — a table is read back from every listing of it.
-/

namespace NeuralArch

open Number

/-! ## Records with a tag -/

namespace Json

theorem depth_ofFloat (x : Float) : (ofFloat x).depth = 0 := by
  rw [ofFloat]
  cases floatStyle.numeral? x <;> rfl

variable {floats : FloatReader}

theorem settled_ofFloat {x : Float} (h : ReadsBack floats x) :
    (ofFloat x).settled floats = true := by
  obtain ⟨n, hn, hinteger, hfloat⟩ := exists_ofFloat h
  rw [hn, settled, float?, hinteger, hfloat]
  rfl

theorem settled_ofInt64 (i : Int64) : (ofInt64 i).settled floats = true := by
  rw [ofInt64, settled, float?, integer?_ofInt64]
  rfl

/-- A value that is nested in nothing and has a meaning. -/
def Plain (floats : FloatReader) (j : Json) : Prop := j.depth = 0 ∧ j.settled floats = true

theorem plain_ofFloat {x : Float} (h : ReadsBack floats x) : (ofFloat x).Plain floats :=
  ⟨depth_ofFloat x, settled_ofFloat h⟩

theorem plain_ofInt64 (i : Int64) : (ofInt64 i).Plain floats := ⟨rfl, settled_ofInt64 i⟩

/-- A record of plain values is one level deep. -/
theorem depth_ofMembers {members : List (String × Json)} (h : ∀ m ∈ members, m.2.Plain floats) :
    (ofMembers members).depth = 1 ∧ (ofMembers members).settled floats = true := by
  suffices hmembers : depthOfMembers (members.map fun m => (some m.1, m.2)) = 0 ∧
      settledMembers floats (members.map fun m => (some m.1, m.2)) = true by
    rw [ofMembers, depth, settled, hmembers.1]
    exact ⟨rfl, hmembers.2⟩
  induction members with
  | nil => exact ⟨rfl, rfl⟩
  | cons m members ih =>
    rw [List.forall_mem_cons] at h
    obtain ⟨hdepth, hsettled⟩ := ih h.2
    rw [List.map_cons, depthOfMembers, settledMembers, hdepth, hsettled, h.1.1, h.1.2]
    exact ⟨rfl, rfl⟩

/-- A record of plain values that has its tag in front. -/
theorem tagged?_ofMembers {name tag : String} {members : List (String × Json)} {room : Nat}
    (hroom : 1 ≤ room) (hplain : ∀ m ∈ members, m.2.Plain floats)
    (hnames : ∀ m ∈ members, (m.1 == name) = false) :
    (ofMembers ((name, ofText tag) :: members)).tagged? floats room name =
      some (tag, ofMembers members) := by
  obtain ⟨hdepth, hsettled⟩ := @depth_ofMembers floats ((name, ofText tag) :: members)
    (List.forall_mem_cons.2 ⟨⟨rfl, rfl⟩, hplain⟩)
  have htag : ((name, ofText tag) :: members).filter (·.1 == name) = [(name, ofText tag)] := by
    rw [List.filter_cons_of_pos (by simp),
      List.filter_eq_nil_iff.2 fun m hm => by simp [hnames m hm]]
  have hrest : ((name, ofText tag) :: members).filter (·.1 != name) = members := by
    rw [List.filter_cons_of_neg (by simp)]
    exact List.filter_eq_self.2 fun m hm => by rw [bne, hnames m hm]; rfl
  have hmembers := asMembers?_ofMembers ((name, ofText tag) :: members)
  unfold tagged?
  rw [if_pos ⟨hdepth.le.trans hroom, hsettled⟩]
  show (do
    let named ← asMembers? (ofMembers ((name, ofText tag) :: members))
    let tag ← (← field? named name)
    let t ← tag.asText?
    return (t, ofMembers (named.filter (·.1 != name)))) = _
  rw [hmembers, Option.bind_eq_bind, Option.bind_some, hrest, field?, htag]
  rfl

end Json

/-! ## Ranges -/

namespace ParamRange

/-- Whether a range can be written as JSON: its bounds have to be finite. -/
def isFinite : ParamRange → Bool
  | int _ => true
  | float min max => min.isFinite && max.all Float.isFinite

/-- The bounds of a range that are floats. -/
def bounds : ParamRange → List Float
  | int _ => []
  | float min max => min :: max.toList

theorem isFinite_of_mem_bounds {range : ParamRange} (h : range.isFinite = true) {x : Float}
    (hx : x ∈ range.bounds) : x.isFinite = true := by
  cases range with
  | int min => cases hx
  | float min max =>
    rw [isFinite, Bool.and_eq_true, Option.all_eq_true] at h
    obtain rfl | hmax := List.mem_cons.1 hx
    · exact h.1
    · exact h.2 x (Option.mem_toList.1 hmax)

/-- An optional bound as it is written. -/
def maximum (max : Option Float) : Json := (max.map Json.ofFloat).getD .null

variable {floats : Json.FloatReader}

theorem maximum?_maximum {max : Option Float} (h : ∀ x ∈ max.toList, Json.ReadsBack floats x) :
    maximum? floats (some (maximum max)) = some max := by
  cases max with
  | none => rfl
  | some x =>
    have hx := h x (List.mem_singleton_self x)
    have hread := Json.asFloat?_ofFloat hx
    obtain ⟨n, hn, -⟩ := Json.exists_ofFloat hx
    rw [hn] at hread
    show maximum? floats (some (Json.ofFloat x)) = _
    rw [hn, maximum?, hread]
    · rfl
    · simp

theorem plain_maximum {max : Option Float} (h : ∀ x ∈ max.toList, Json.ReadsBack floats x) :
    (maximum max).Plain floats := by
  cases max with
  | none => exact ⟨rfl, rfl⟩
  | some x => exact Json.plain_ofFloat (h x (List.mem_singleton_self x))

theorem ofJson?_toJson {range : ParamRange} (h : ∀ x ∈ range.bounds, Json.ReadsBack floats x)
    {room : Nat} (hroom : 1 ≤ room) : ofJson? floats room range.toJson = some range := by
  cases range with
  | int min =>
    have hplain : ∀ m ∈ [("min", Json.ofInt64 min)], m.2.Plain floats :=
      List.forall_mem_singleton.2 (Json.plain_ofInt64 min)
    have htagged := @Json.tagged?_ofMembers floats "kind" "int" _ room hroom hplain (by simp)
    have hrecord : (Json.ofMembers [("min", Json.ofInt64 min)]).record? ["min"] =
        some [some (Json.ofInt64 min)] := rfl
    simp only [ofJson?, toJson, htagged, hrecord, Json.asInt64?_ofInt64, Option.map_some]
  | float min max =>
    rw [bounds, List.forall_mem_cons] at h
    have hplain : ∀ m ∈ [("min", Json.ofFloat min), ("max", maximum max)], m.2.Plain floats :=
      List.forall_mem_cons.2
        ⟨Json.plain_ofFloat h.1, List.forall_mem_singleton.2 (plain_maximum h.2)⟩
    have htagged := @Json.tagged?_ofMembers floats "kind" "float" _ room hroom hplain (by simp)
    have hrecord : (Json.ofMembers [("min", Json.ofFloat min), ("max", maximum max)]).record?
        ["min", "max"] = some [some (Json.ofFloat min), some (maximum max)] := rfl
    rw [ofJson?, toJson, ← maximum]
    simp only [htagged, hrecord, Json.asFloat?_ofFloat h.1, maximum?_maximum h.2]
    rfl

theorem wellFormed_toJson (range : ParamRange) : range.toJson.WellFormed := by
  cases range with
  | int min =>
    refine Json.wellFormed_ofMembers (List.forall_mem_cons.2 ⟨trivial, ?_⟩)
    exact List.forall_mem_singleton.2 (wellFormed_ofInt _)
  | float min max =>
    refine Json.wellFormed_ofMembers (List.forall_mem_cons.2 ⟨trivial,
      List.forall_mem_cons.2 ⟨Json.wellFormed_ofFloat min, List.forall_mem_singleton.2 ?_⟩⟩)
    cases max with
    | none => trivial
    | some x => exact Json.wellFormed_ofFloat x

end ParamRange

/-! ## Maps in any order -/

namespace Json

/-- Members that are read as the entries of a map are read as the map. -/
theorem asMap?_ofMembers {α : Type} {read : Json → Option α} {members : List (String × Json)}
    {entries : List (String × α)}
    (h : List.Forall₂ (fun m e => m.1 = e.1 ∧ read m.2 = some e.2) members entries)
    {m : Std.ExtTreeMap String α} (hm : entries.Perm m.toList) :
    (ofMembers members).asMap? read = some m := by
  have hread : (members.mapM fun m => (read m.2).map fun a => (m.1, a)) = some entries := by
    clear hm
    induction h with
    | nil => rfl
    | @cons member entry _ _ hentry _ ih =>
      rw [List.mapM_cons, ih, hentry.2, Option.map_some, hentry.1]
      rfl
  rw [asMap?, asMembers?_ofMembers, Option.bind_some, readMembers?, hread, Option.map_some,
    ofList_of_perm hm]

end Json

namespace RuleTable

/-- A list of names is read as the set of the names. -/
theorem names?_of_perm {names : List String} {s : Std.ExtTreeSet String}
    (h : names.Perm s.toList) : names? (.array (names.map Json.ofText)) = some s := by
  have hset : Std.ExtTreeSet.ofList names = s := by
    refine Std.ExtTreeSet.ext_mem fun k => ?_
    rw [Std.ExtTreeSet.mem_ofList, List.contains_iff_mem, h.mem_iff, Std.ExtTreeSet.mem_toList]
  have hread := @mapM_map_eq_some String Json Json.ofText Json.asText? (fun _ => rfl) names
  rw [names?, Json.asList?, hread, Option.map_some, hset]

/-! ## Listings -/

/-- The entries of a table in some order. -/
structure Listing where
  layers : List (String × List String)
  ranges : List (String × ParamRange)

namespace Listing

def toJson (l : Listing) : Json :=
  Json.ofMembers
    [("layer_params",
      Json.ofMembers (l.layers.map fun (layer, params) =>
        (layer, .array (params.map Json.ofText)))),
     ("ranges", Json.ofMembers (l.ranges.map fun (param, range) => (param, range.toJson)))]

/-- The JSON text of a listing. -/
def render (l : Listing) : String := l.toJson.text

/-- A listing has each entry of a table once, and each parameter of a layer once. -/
structure Lists (l : Listing) (r : RuleTable) : Prop where
  layers : ∃ entries : List (String × Std.ExtTreeSet String), entries.Perm r.layers.toList ∧
    List.Forall₂ (fun named entry => named.1 = entry.1 ∧ named.2.Perm entry.2.toList)
      l.layers entries
  ranges : l.ranges.Perm r.ranges.toList

theorem wellFormed_toJson (l : Listing) : l.toJson.WellFormed := by
  refine Json.wellFormed_ofMembers (List.forall_mem_cons.2 ⟨?_, List.forall_mem_singleton.2 ?_⟩)
  · refine Json.wellFormed_ofMembers (List.forall_mem_map.2 fun entry _ => ?_)
    rw [Json.WellFormed, Json.wellFormedItems_iff]
    exact List.forall_mem_map.2 fun _ _ => trivial
  · exact Json.wellFormed_ofMembers (List.forall_mem_map.2 fun entry _ =>
      entry.2.wellFormed_toJson)

/-- The same entries, the other way round. -/
def reverse (l : Listing) : Listing := ⟨l.layers.reverse, l.ranges.reverse⟩

theorem Lists.reverse {l : Listing} {r : RuleTable} (h : l.Lists r) : l.reverse.Lists r where
  layers := by
    obtain ⟨entries, hentries, hlayers⟩ := h.layers
    exact ⟨entries.reverse, entries.reverse_perm.trans hentries, List.rel_reverse hlayers⟩
  ranges := l.ranges.reverse_perm.trans h.ranges

end Listing

/-- A table is printed in the order of the names. -/
def listing (r : RuleTable) : Listing where
  layers := r.layers.toList.map fun (layer, params) => (layer, params.toList)
  ranges := r.ranges.toList

theorem render_listing (r : RuleTable) : r.listing.render = r.render := by
  rw [Listing.render, Listing.toJson, listing, List.map_map]
  rfl

theorem lists_listing (r : RuleTable) : r.listing.Lists r where
  layers := ⟨r.layers.toList, .refl _, List.forall₂_map_left_iff.2
    (List.forall₂_same.2 fun _ _ => ⟨rfl, .refl _⟩)⟩
  ranges := .refl _

/-! ## Tables -/

/-- Whether all ranges can be written as JSON. -/
def AllFinite (r : RuleTable) : Prop :=
  ∀ param range, r.range? param = some range → range.isFinite = true

theorem allFinite_standard : standard.AllFinite := by
  have hall : ∀ entry ∈ standard.ranges.toList, entry.2.isFinite = true := by decide
  intro param range h
  exact hall (param, range) (Std.ExtTreeMap.mem_toList_iff_getElem?_eq_some.2 h)

section

variable {r : RuleTable} (h : r.AllFinite)

include h

theorem AllFinite.allow (layer : String) (params : List String) :
    (r.allow layer params).AllFinite := h

theorem AllFinite.remove (layer : String) : (r.remove layer).AllFinite := h

theorem AllFinite.setRange (param : String) {range : ParamRange} (hrange : range.isFinite = true) :
    (r.setRange param range).AllFinite := by
  intro name found hfound
  rw [range?_setRange] at hfound
  split at hfound
  · obtain rfl := Option.some.inj hfound
    exact hrange
  · exact h name found hfound

end

/-- The bounds of all ranges. -/
def bounds (r : RuleTable) : List Float := r.ranges.toList.flatMap (·.2.bounds)

theorem ofJson?_listing {floats : Json.FloatReader} {r : RuleTable} (hfinite : r.AllFinite)
    (hread : ∀ x ∈ r.bounds, x.isFinite = true → Json.ReadsBack floats x) {l : Listing}
    (hl : l.Lists r) : ofJson? floats l.toJson = some r := by
  obtain ⟨entries, hentries, hlayers⟩ := hl.layers
  have hlayerMap : (Json.ofMembers (l.layers.map fun entry =>
      (entry.1, .array (entry.2.map Json.ofText)))).asMap? names? = some r.layers := by
    refine Json.asMap?_ofMembers (List.forall₂_map_left_iff.2 (hlayers.imp ?_)) hentries
    rintro named entry ⟨hname, hparams⟩
    exact ⟨hname, names?_of_perm hparams⟩
  have hrangeMap : (Json.ofMembers (l.ranges.map fun entry => (entry.1, entry.2.toJson))).asMap?
      (ParamRange.ofJson? floats (Json.maxDepth - 2)) = some r.ranges := by
    refine Json.asMap?_ofMembers (List.forall₂_map_left_iff.2 (List.forall₂_same.2 ?_)) hl.ranges
    rintro ⟨param, range⟩ hmem
    have hentry : (param, range) ∈ r.ranges.toList := hl.ranges.mem_iff.1 hmem
    have hrange := hfinite param range (Std.ExtTreeMap.mem_toList_iff_getElem?_eq_some.1 hentry)
    have hbounds : ∀ x ∈ range.bounds, Json.ReadsBack floats x := fun x hx =>
      hread x (List.mem_flatMap_of_mem hentry hx) (ParamRange.isFinite_of_mem_bounds hrange hx)
    exact ⟨rfl, ParamRange.ofJson?_toJson hbounds (by decide)⟩
  have hrecord : l.toJson.record? ["layer_params", "ranges"] =
      some [some (Json.ofMembers (l.layers.map fun entry =>
          (entry.1, .array (entry.2.map Json.ofText)))),
        some (Json.ofMembers (l.ranges.map fun entry => (entry.1, entry.2.toJson)))] := by
    rw [Listing.toJson, Json.record?_ofMembers]
    rfl
  rw [ofJson?, hrecord]
  simp only [hlayerMap, hrangeMap, Option.bind_eq_bind, Option.bind_some]
  rfl

/-- A table whose bounds are finite is read back from its text, in whatever order its layers, their
parameters and its ranges are written, and then validation finds the same.  This is so for every
reader of floats that reads back the bounds. -/
theorem parse?_listing (floats : Json.FloatReader) {r : RuleTable} (hfinite : r.AllFinite)
    (hread : ∀ x ∈ r.bounds, x.isFinite = true → Json.ReadsBack floats x) {l : Listing}
    (hl : l.Lists r) :
    parse? floats l.render = some r ∧
      ∀ t : Tree, (parse? floats l.render).map (·.validate t) = some (r.validate t) := by
  have hself : parse? floats l.render = some r := by
    rw [parse?, Listing.render, Json.parse?_text l.wellFormed_toJson, Option.bind_some,
      ofJson?_listing hfinite hread hl]
  exact ⟨hself, fun t => by rw [hself, Option.map_some]⟩

/-- The built-in table with changes: a layer that admits nothing, and ranges of all forms. -/
def adapted : RuleTable :=
  standard.allow "tcn" ["units", "filters"] |>.remove "lstm" |>.allow "dense" []
    |>.setRange "units" (.int (-3)) |>.setRange "l1" (.float 0 none)
    |>.setRange "dropout" (.float 1e-7 (some 0.5))

/-- It is read back by float arithmetic too, from its own text and from one that has its entries
the other way round. -/
theorem parse?_listing_adapted :
    parse? .arithmetic adapted.render = some adapted ∧
      parse? .arithmetic adapted.listing.reverse.render = some adapted ∧
      ∀ t : Tree, (parse? .arithmetic adapted.listing.reverse.render).map (·.validate t) =
        some (adapted.validate t) := by
  have hfinite : adapted.AllFinite :=
    allFinite_standard.allow _ _ |>.remove _ |>.allow _ _ |>.setRange _ rfl
      |>.setRange _ rfl |>.setRange _ rfl
  have hread : ∀ x ∈ adapted.bounds, x.isFinite = true → Json.ReadsBack .arithmetic x := by
    decide +kernel
  refine ⟨?_, parse?_listing .arithmetic hfinite hread adapted.lists_listing.reverse⟩
  rw [← render_listing]
  exact (parse?_listing .arithmetic hfinite hread adapted.lists_listing).1

end RuleTable

end NeuralArch
