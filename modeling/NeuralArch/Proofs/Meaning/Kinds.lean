import NeuralArch.Proofs.Meaning.Reporting

/-!
# Diagnostics by kind

Each kind of diagnostic has one origin.  A number brings up a value, a parameter
that the type of its layer does not admit the structure, and a type of layer that
the table does not list the configuration.  So what a report holds of a kind is
known from the outline, without a look at the rest of the report.

* `filter_configuration_validate` — one diagnostic for each layer of an unknown
  type, in order.
* `Outline.Admitted` — every parameter is admitted where it stands;
  `kind_ne_structural_of_mem_validate` is what follows.
-/

namespace NeuralArch.Meaning

open NeuralArch.Tree
open Token Syntax

variable {r : RuleTable}

/-! ## Numbers -/

theorem kind_of_violation? {param text : String} {cause : Diagnostic.Cause}
    (h : r.violation? param text = some cause) : cause.kind = .value := by
  have hvalue : ∀ {c : Diagnostic.Cause}, c.kind = .value → some c = some cause →
      cause.kind = .value := by
    intro c hc heq
    rwa [← Option.some.inj heq]
  rw [RuleTable.violation?] at h
  cases hrange : r.range? param with
  | none => simp [hrange] at h
  | some range =>
    rw [hrange] at h
    cases range with
    | int min =>
      cases hread : Number.readInt64? text with
      | none =>
        simp only [hread] at h
        exact hvalue rfl h
      | some v =>
        simp only [hread] at h
        split at h
        · cases h
        · exact hvalue rfl h
    | float min max =>
      cases hread : Number.readFloat? text with
      | none =>
        simp only [hread] at h
        exact hvalue rfl h
      | some v =>
        simp only [hread] at h
        split at h
        · cases h
        · exact hvalue rfl h

/-- Where only the range of a number counts, only its value is reported. -/
theorem kind_of_mem_checkRange {name : Token} {value : Option Token} {d : Diagnostic}
    (h : d ∈ r.checkRange name value) : d.kind = .value := by
  cases value with
  | none => cases h
  | some value =>
    rw [RuleTable.checkRange] at h
    cases hviolation : r.violation? name.value value.value with
    | none =>
      rw [hviolation] at h
      cases h
    | some cause =>
      rw [hviolation] at h
      rw [List.mem_singleton.1 h]
      exact kind_of_violation? hviolation

/-! ## Blocks -/

theorem kind_of_mem_visit_endPart {b : Block} (hb : b ≠ .hidden) {p : EndPart b}
    {d : Diagnostic} (h : d ∈ r.visit none p.tree) : d.kind = .value := by
  rw [EndPart.tree, visit_endBlock r hb p.word_isHead, List.flatMap_map, List.mem_flatMap] at h
  obtain ⟨s, -, hd⟩ := h
  rw [Setting.tree, visit_endParam r hb] at hd
  exact kind_of_mem_checkRange hd

theorem visit_layerPart_of_unknown {p : LayerPart} (h : r.allowed? p.type.value = none) :
    r.visit none p.tree = [⟨.unknownLayer p.type.value, p.type.pos⟩] := by
  rw [LayerPart.tree, visit_hiddenBlock r p.type_isLayer, h, if_pos Option.isNone_none]

/-- In a layer of a known type a parameter is reported for its value, unless the type does not
admit it. -/
theorem kind_of_mem_visit_layerPart {p : LayerPart} {allowed : Std.ExtTreeSet String}
    (hallowed : r.allowed? p.type.value = some allowed) {d : Diagnostic}
    (h : d ∈ r.visit none p.tree) :
    d.kind = .value ∨ d.kind = .structural ∧ ∃ s ∈ p.settings, s.name.value ∉ allowed := by
  rw [LayerPart.tree, visit_hiddenBlock r p.type_isLayer, hallowed, if_neg (by simp),
    List.flatMap_map, List.mem_flatMap] at h
  obtain ⟨s, hs, hd⟩ := h
  rw [Setting.tree, paramKind, visit_layerParam r hallowed] at hd
  split at hd
  · exact .inl (kind_of_mem_checkRange hd)
  · next hname =>
    rw [List.mem_singleton.1 hd]
    exact .inr ⟨rfl, s, hs, mt Std.ExtTreeSet.mem_iff_contains.1 hname⟩

/-! ## Descriptions -/

/-- Every parameter of a layer is admitted by the type of the layer, if that is known. -/
def Outline.Admitted (r : RuleTable) (o : Outline) : Prop :=
  ∀ p ∈ o.hidden, ∀ allowed, r.allowed? p.type.value = some allowed →
    ∀ s ∈ p.settings, s.name.value ∈ allowed

/-- Whether a table does not list the type of a layer. -/
def LayerPart.isUnknown (r : RuleTable) (p : LayerPart) : Bool := (r.allowed? p.type.value).isNone

/-- The diagnostic for a layer of an unknown type. -/
def LayerPart.unknown (p : LayerPart) : Diagnostic := ⟨.unknownLayer p.type.value, p.type.pos⟩

theorem validate_outline (o : Outline) :
    r.validate o.tree = r.visit none o.input.tree
      ++ o.hidden.flatMap (fun p => r.visit none p.tree) ++ r.visit none o.output.tree := by
  rw [Outline.tree, validate_network, List.flatMap_map]

/-- Only parameters that are not admitted concern the structure. -/
theorem kind_ne_structural_of_mem_validate {o : Outline} (h : o.Admitted r) {d : Diagnostic}
    (hd : d ∈ r.validate o.tree) : d.kind ≠ .structural := by
  have hvalue : d.kind = .value → d.kind ≠ .structural := by
    intro hkind
    rw [hkind]
    decide
  rw [validate_outline, List.mem_append, List.mem_append, List.mem_flatMap] at hd
  rcases hd with (hd | ⟨p, hp, hd⟩) | hd
  · exact hvalue (kind_of_mem_visit_endPart (by decide) hd)
  · cases htype : r.allowed? p.type.value with
    | none =>
      rw [visit_layerPart_of_unknown htype, List.mem_singleton] at hd
      rw [hd, Diagnostic.kind, Diagnostic.Cause.kind]
      decide
    | some allowed =>
      rcases kind_of_mem_visit_layerPart htype hd with hkind | ⟨-, s, hs, hname⟩
      · exact hvalue hkind
      · exact absurd (h p hp allowed htype s hs) hname
  · exact hvalue (kind_of_mem_visit_endPart (by decide) hd)

theorem filter_configuration_visit_endPart {b : Block} (hb : b ≠ .hidden) (p : EndPart b) :
    (r.visit none p.tree).filter (fun d => d.kind = .configuration) = [] := by
  rw [List.filter_eq_nil_iff]
  intro d hd
  rw [kind_of_mem_visit_endPart hb hd]
  decide

theorem filter_configuration_visit_layerPart (p : LayerPart) :
    (r.visit none p.tree).filter (fun d => d.kind = .configuration) =
      if p.isUnknown r then [p.unknown] else [] := by
  rw [LayerPart.isUnknown]
  cases htype : r.allowed? p.type.value with
  | none => rw [visit_layerPart_of_unknown htype]; rfl
  | some allowed =>
    rw [if_neg (by simp), List.filter_eq_nil_iff]
    intro d hd
    rcases kind_of_mem_visit_layerPart htype hd with hkind | ⟨hkind, -⟩
    · rw [hkind]
      decide
    · rw [hkind]
      decide

/-- Exactly the layers of unknown types concern the configuration, each of them once. -/
theorem filter_configuration_validate (r : RuleTable) (o : Outline) :
    (r.validate o.tree).filter (fun d => d.kind = .configuration) =
      (o.hidden.filter (LayerPart.isUnknown r)).map LayerPart.unknown := by
  rw [validate_outline, List.filter_append, List.filter_append,
    filter_configuration_visit_endPart (by decide), filter_configuration_visit_endPart (by decide),
    List.nil_append, List.append_nil]
  induction o.hidden with
  | nil => rfl
  | cons p ps ih =>
    rw [List.flatMap_cons, List.filter_append, filter_configuration_visit_layerPart, ih,
      List.filter_cons]
    split
    · rfl
    · rfl

end NeuralArch.Meaning
