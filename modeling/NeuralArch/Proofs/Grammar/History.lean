import NeuralArch.Proofs.Grammar.Construction

/-!
# Histories of grammars

A grammar comes about by one change after another. A definition of a text puts
alternatives in the place of those its symbol has; a call adds one alternative,
or is refused and changes nothing. Expansions trust what a rule says about
itself, that it has an alternative and which of them do not lead back to it, so
this has to be so whatever has happened before.

A definition takes the old rule away before it adds the new alternatives, and in
between the start symbol may be without a rule. What is kept is therefore said
of whole definitions.

* `Change`, `after` — what is done to a grammar, and what becomes of it.
* `stages` — the grammars that come about one after another.
* `Rule.Accurate`, `Consistent` — what holds of a rule and of a grammar.
* `after_eq_or_gains` — a change does nothing, or one symbol gets a rule.
* `stages_consistent` — every stage is consistent, and the start symbol stays.
-/

namespace NeuralArch

/-- What a rule of a symbol says about its alternatives is so. -/
structure Rule.Accurate (symbol : String) (r : Rule) : Prop where
  ne_nil : r.productions ≠ []
  selfRecursive_iff : ∀ p ∈ r.productions,
    (p.selfRecursive = true ↔ .symbol symbol ∈ p.elements)
  ascending : r.nonRecursive.Pairwise (· < ·)
  mem_nonRecursive_iff : ∀ i, i ∈ r.nonRecursive ↔
    ∃ p, r.productions[i]? = some p ∧ p.selfRecursive = false
  isRecursive_iff : r.isRecursive = true ↔ ∃ p ∈ r.productions, p.selfRecursive = true

namespace Grammar

/-! ## Changes -/

/-- A grammar with one more alternative, or the same grammar where that is refused. -/
def attempt (g : Grammar) (symbol : String) (tokens : List String) : Grammar :=
  match g.add symbol tokens with
  | .ok g' => g'
  | .error _ => g

/-- What is done to a grammar at once. -/
inductive Change
  /-- A symbol gets new alternatives in place of those it has. -/
  | define (symbol : String) (alternatives : List (List String))
  /-- A symbol is to get one more alternative. -/
  | add (symbol : String) (tokens : List String)

/-- The grammar that a change leaves. -/
def after (g : Grammar) : Change → Grammar
  | .define symbol alternatives => g.define symbol alternatives
  | .add symbol tokens => g.attempt symbol tokens

/-- The changes that the definitions of a text make. -/
def Change.ofText (text : String) : List Change :=
  (sections (flatten text.toList)).2.map fun (name, body) =>
    .define (String.ofList name) (alternatives body)

/-- What is done to the empty grammar when a text is read, if there is one, and alternatives are
added to what it gives. -/
def history (text : Option String) (calls : List (String × List String)) : List Change :=
  text.elim [] Change.ofText ++ calls.map fun (symbol, tokens) => Change.add symbol tokens

/-- The grammars that come about in a history. The first is the empty grammar. -/
def stages (text : Option String) (calls : List (String × List String)) : List Grammar :=
  (history text calls).scanl after empty

theorem foldl_ofText (text : String) : (Change.ofText text).foldl after empty = ofText text := by
  rw [Change.ofText, List.foldl_map]
  rfl

/-- The last stage is the grammar that calls make of the one they find. -/
theorem getLast?_stages (text : Option String) (calls : List (String × List String)) :
    (stages text calls).getLast? =
      some (calls.foldl (fun g (symbol, tokens) => g.attempt symbol tokens)
        (text.elim empty ofText)) := by
  have hread : (text.elim [] Change.ofText).foldl after empty = text.elim empty ofText := by
    cases text with
    | none => rfl
    | some text => exact foldl_ofText text
  rw [stages, List.getLast?_scanl, history, List.foldl_append, hread, List.foldl_map]
  rfl

/-! ## What a change does -/

section

variable {g g' : Grammar} {s : String}

theorem has_iff : g.has s = true ↔ ∃ r, g.rule? s = some r := by
  rw [has, Std.ExtTreeMap.contains_eq_isSome_getElem?, Option.isSome_iff_exists]
  rfl

theorem isEmpty_of_has (h : g.has s = true) : g.isEmpty = false := by
  rw [← Bool.not_eq_true]
  intro hempty
  rw [isEmpty, Std.ExtTreeMap.isEmpty_iff] at hempty
  rw [has, hempty] at h
  simp at h

theorem attempt_eq (g : Grammar) (s : String) (tokens : List String) :
    g.attempt s tokens = if tokens.isEmpty then g else g.push s tokens := by
  rw [attempt, add]
  cases tokens.isEmpty <;> rfl

/-- A symbol gets a rule, and starts expansions if there has been no other to do so. -/
structure Gains (s : String) (g g' : Grammar) : Prop where
  start : g'.start = g.start.or (some s)
  has_iff : ∀ t, g'.has t = true ↔ s = t ∨ g.has t = true

theorem gains_push (g : Grammar) (s : String) (tokens : List String) :
    Gains s g (g.push s tokens) where
  start := rfl
  has_iff t := by
    rw [has_iff, has_iff, rule?_push]
    by_cases hst : s = t <;> simp [hst]

theorem gains_define (g : Grammar) (s : String) {alternatives : List (List String)}
    (h : alternatives ≠ []) : Gains s g (g.define s alternatives) where
  start := by rw [start_define, if_neg h]
  has_iff t := by
    rw [has_iff, has_iff, rule?_define t h]
    by_cases hst : s = t <;> simp [hst]

theorem after_eq_or_gains (g : Grammar) (c : Change) :
    g.after c = g ∨ ∃ s, Gains s g (g.after c) := by
  cases c with
  | define s alternatives =>
    by_cases h : alternatives = []
    · left
      rw [after, define, if_pos (List.isEmpty_iff.2 h)]
    · exact .inr ⟨s, gains_define g s h⟩
  | add s tokens =>
    rw [after, attempt_eq]
    split
    · exact .inl rfl
    · exact .inr ⟨s, gains_push g s tokens⟩

/-! ## The start symbol -/

/-- If there is a start symbol in one grammar, it is that of the other. -/
def KeepsStart (g g' : Grammar) : Prop := ∀ root, g.start = some root → g'.start = some root

theorem KeepsStart.trans {g'' : Grammar} (h : KeepsStart g g') (h' : KeepsStart g' g'') :
    KeepsStart g g'' :=
  fun root hroot => h' root (h root hroot)

theorem keepsStart_after (g : Grammar) (c : Change) : KeepsStart g (g.after c) := by
  intro root hroot
  obtain heq | ⟨s, hgains⟩ := after_eq_or_gains g c
  · rw [heq, hroot]
  · rw [hgains.start, hroot, Option.some_or]

/-- There is a start symbol exactly if there are rules, and then it has one. -/
structure Rooted (g : Grammar) : Prop where
  start_eq_none_iff : g.start = none ↔ g.isEmpty = true
  has_start : ∀ root, g.start = some root → g.has root = true

theorem rooted_empty : Rooted empty where
  start_eq_none_iff := by simp [empty, isEmpty]
  has_start root h := by simp [empty] at h

theorem Gains.rooted (h : Gains s g g') (hg : g.Rooted) : g'.Rooted where
  start_eq_none_iff := by
    have hempty : g'.isEmpty = false := isEmpty_of_has ((h.has_iff s).2 (.inl rfl))
    rw [h.start, hempty]
    simp
  has_start root hroot := by
    rw [h.start] at hroot
    rw [h.has_iff]
    cases hstart : g.start with
    | none =>
      rw [hstart, Option.none_or] at hroot
      exact .inl (Option.some.inj hroot)
    | some old =>
      rw [hstart, Option.some_or] at hroot
      exact .inr (hg.has_start root (hstart.trans hroot))

theorem Rooted.after (hg : g.Rooted) (c : Change) : (g.after c).Rooted := by
  obtain heq | ⟨s, hgains⟩ := after_eq_or_gains g c
  · rwa [heq]
  · exact hgains.rooted hg

/-! ## Rules -/

theorem Regular.after (hg : g.Regular) (c : Change) : (g.after c).Regular := by
  cases c with
  | define s alternatives => exact hg.define s alternatives
  | add s tokens =>
    rw [Grammar.after, attempt_eq]
    split
    · exact hg
    · exact hg.push s tokens

/-- Alternatives that have been added one after another make an accurate rule. -/
theorem Regular.accurate (hg : g.Regular) {r : Rule} (hr : g.rule? s = some r) :
    r.Accurate s := by
  have hflags := fun p => hg.selfRecursive_iff hr (p := p)
  obtain ⟨alternatives, hne, rfl⟩ := hg s r hr
  refine ⟨?_, hflags, Rule.pairwise_nonRecursive_ofProductions _, fun i => ?_, ?_⟩
  · rw [Rule.productions_ofProductions]
    exact fun hnil => hne (List.map_eq_nil_iff.1 hnil)
  · rw [Rule.mem_nonRecursive_ofProductions, Rule.productions_ofProductions]
  · rw [Rule.isRecursive_ofProductions, Rule.productions_ofProductions]

end

/-! ## Histories -/

/-- What is so in a grammar whatever its history. -/
structure Consistent (g : Grammar) : Prop extends Rooted g where
  accurate : ∀ s r, g.rule? s = some r → r.Accurate s

/-- What every change keeps holds of all that comes about. -/
theorem forall_mem_scanl_after {P : Grammar → Prop} (hstep : ∀ g c, P g → P (g.after c))
    {g : Grammar} (hg : P g) (changes : List Change) : ∀ g' ∈ changes.scanl after g, P g' := by
  induction changes generalizing g with
  | nil => simpa using hg
  | cons c changes ih =>
    rw [List.scanl_cons, List.forall_mem_cons]
    exact ⟨hg, ih (hstep g c hg)⟩

theorem pairwise_scanl_after (changes : List Change) (g : Grammar) :
    (changes.scanl after g).Pairwise KeepsStart := by
  induction changes generalizing g with
  | nil => simp
  | cons c changes ih =>
    rw [List.scanl_cons]
    refine .cons ?_ (ih _)
    exact forall_mem_scanl_after (fun g' c h => h.trans (keepsStart_after g' c))
      (keepsStart_after g c) changes

/-- Whatever text a grammar is read from, and whatever calls follow, refused ones among them:
at every stage the rules are accurate and the start symbol is that of a rule, if there is any;
and once there is a start symbol, it stays. -/
theorem stages_consistent (text : Option String) (calls : List (String × List String)) :
    (stages text calls).getLast? =
        some (calls.foldl (fun g (symbol, tokens) => g.attempt symbol tokens)
          (text.elim empty ofText)) ∧
      (∀ g ∈ stages text calls, g.Consistent) ∧
      (stages text calls).Pairwise KeepsStart := by
  refine ⟨getLast?_stages text calls, fun g hg => ?_, pairwise_scanl_after _ _⟩
  obtain ⟨hregular, hrooted⟩ : g.Regular ∧ g.Rooted :=
    forall_mem_scanl_after (P := fun g => g.Regular ∧ g.Rooted)
      (fun g c h => ⟨h.1.after c, h.2.after c⟩) ⟨regular_empty, rooted_empty⟩ _ g hg
  exact ⟨hrooted, fun s r => hregular.accurate⟩

/-- The start symbol is defined, referred to, and defined again. -/
def redefinedRoot : String := "<a> ::= \"x\" | <a>\n<b> ::= <a>\n<a> ::= <b>"

/-- The second definition takes the place of the first, a call without tokens changes nothing,
and the call behind it makes the rule recursive. -/
theorem stages_redefinedRoot :
    let calls := [("a", []), ("a", ["<a>", "\"z\""])]
    (stages (some redefinedRoot) calls).map (·.start) = none :: List.replicate 5 (some "a") ∧
      ∃ g, (stages (some redefinedRoot) calls).getLast? = some g ∧
        g.rule? "a" = some
          ⟨[⟨[.symbol "b"], false⟩, ⟨[.symbol "a", .literal "z"], true⟩], [0]⟩ ∧
        g.Consistent := by
  intro calls
  obtain ⟨hlast, hconsistent, -⟩ := stages_consistent (some redefinedRoot) calls
  refine ⟨by decide +kernel, _, hlast, by decide +kernel, ?_⟩
  exact hconsistent _ (List.mem_of_getLast? hlast)

end Grammar

end NeuralArch
