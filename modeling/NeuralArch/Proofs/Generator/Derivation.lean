import NeuralArch.Proofs.Generator.Runs
import NeuralArch.Proofs.Grammar.Construction

/-!
# Expansions are sentences

Without strategies a generator does nothing but derive: what it writes is the
yield of a derivation tree of its grammar.  A placeholder stands in the tree
for a value that its sampler prints, and the sampler is that of the nearest
parameter around it.  Only a rule that was cut off at the bound has no
derivation, and that cannot happen where every rule has an alternative without
the rule's own symbol.

* `Derivation`, `Derives` — derivation trees, and those of a grammar.
* `derives_elements`, `derives_symbol` — what a run without a truncation wrote
  is derived.
* `exists_derivation` — the expansion of a symbol is a sentence of the grammar.
-/

namespace NeuralArch

/-- A text that a sampler prints, whatever the source is. -/
def Sampler.Prints (sampler : Sampler) (text : String) : Prop :=
  ∃ (σ : Type) (_ : RandomSource σ) (patience : Nat) (source source' : σ),
    sampler.sample patience source = .done (text, source')

namespace Generator

open Layout

/-! ## Derivation trees -/

/-- A tree with words at its leaves and symbols at its inner nodes. -/
inductive Derivation
  | word (text : String)
  | node (symbol : String) (children : List Derivation)

namespace Derivation

mutual

/-- The words at the leaves, from left to right.  An empty one leaves no trace. -/
def yield : Derivation → List String
  | word text => if text.isEmpty then [] else [text]
  | node _ children => yieldAll children

/-- The words at the leaves of several trees, from left to right. -/
def yieldAll : List Derivation → List String
  | [] => []
  | d :: ds => d.yield ++ yieldAll ds

end

end Derivation

/-- The parameter that is being assigned inside some productions, the innermost first: that of
the nearest one that assigns any, and otherwise the one from outside. -/
def context (outside : Option String) (path : List Production) : Option String :=
  (path.findSome? Production.paramName?).or outside

/-- Trees that derive elements, inside the productions of a path. -/
inductive Derives (g : Generator) (outside : Option String) :
    List Production → List Element → List Derivation → Prop
  | nil {path : List Production} : Derives g outside path [] []
  | literal {path : List Production} {es : List Element} {ds : List Derivation} (text : String)
      (htail : Derives g outside path es ds) :
      Derives g outside path (.literal text :: es) (.word text :: ds)
  | terminal {path : List Production} {es : List Element} {ds : List Derivation} {name : String}
      (hname : name ∉ g.config.placeholders) (htail : Derives g outside path es ds) :
      Derives g outside path (.terminal name :: es) (.word name :: ds)
  | placeholder {path : List Production} {es : List Element} {ds : List Derivation}
      {name value : String} (hname : name ∈ g.config.placeholders)
      (hvalue : (g.sampling.sampler name (context outside path)).Prints value)
      (htail : Derives g outside path es ds) :
      Derives g outside path (.terminal name :: es) (.word value :: ds)
  | undefined {path : List Production} {es : List Element} {ds : List Derivation} {name : String}
      (hrule : g.grammar.rule? name = none) (htail : Derives g outside path es ds) :
      Derives g outside path (.symbol name :: es) (.word ("<" ++ name ++ ">") :: ds)
  | symbol {path : List Production} {es : List Element} {ds children : List Derivation}
      {name : String} {r : Rule} {p : Production} (hrule : g.grammar.rule? name = some r)
      (hp : p ∈ r.productions) (hchildren : Derives g outside (p :: path) p.elements children)
      (htail : Derives g outside path es ds) :
      Derives g outside path (.symbol name :: es) (.node name children :: ds)

section

variable {g : Generator} {outside : Option String} {path : List Production}

theorem context_cons (outside : Option String) (p : Production) (path : List Production) :
    context outside (p :: path) = p.paramName?.or (context outside path) := by
  rw [context, context, List.findSome?_cons]
  cases p.paramName? with
  | none => rfl
  | some name => rfl

/-- The tree of one element stands in front of those of the others. -/
theorem Derives.cons {e : Element} {es : List Element} {d : Derivation} {ds : List Derivation}
    (hhead : Derives g outside path [e] [d]) (htail : Derives g outside path es ds) :
    Derives g outside path (e :: es) (d :: ds) := by
  cases hhead with
  | literal text => exact .literal text htail
  | terminal hname => exact .terminal hname htail
  | placeholder hname hvalue => exact .placeholder hname hvalue htail
  | undefined hrule => exact .undefined hrule htail
  | symbol hrule hp hchildren => exact .symbol hrule hp hchildren htail

end

/-! ## What is written between two states -/

variable {σ : Type} {s t u : State σ}

/-- The words of marks.  An empty one leaves no trace. -/
def wordsOf (marks : List Mark) : List String := (marks.map Mark.text).filter (!·.isEmpty)

/-- Words were written between two states. -/
def Wrote (s t : State σ) (ws : List String) : Prop :=
  ∃ ms, t.marks = ms.reverse ++ s.marks ∧ wordsOf ms = ws

theorem wrote_nil (h : t.marks = s.marks) : Wrote s t [] := ⟨[], h, rfl⟩

theorem Wrote.trans {ws ws' : List String} (h : Wrote s t ws) (h' : Wrote t u ws') :
    Wrote s u (ws ++ ws') := by
  obtain ⟨ms, hms, rfl⟩ := h
  obtain ⟨ms', hms', rfl⟩ := h'
  refine ⟨ms ++ ms', ?_, ?_⟩
  · rw [hms', hms, List.reverse_append, List.append_assoc]
  · rw [wordsOf, wordsOf, wordsOf, List.map_append, List.filter_append]

/-- A mark writes what the leaf with its text yields. -/
theorem wrote_written (s : State σ) (m : Mark) :
    Wrote s (s.written m) (Derivation.word m.text).yield := by
  refine ⟨[m], rfl, ?_⟩
  rw [wordsOf, Derivation.yield, List.map_singleton, List.filter_singleton]
  cases m.text.isEmpty <;> rfl

/-- The page holds the marks of a state. -/
def PageOf (width : Nat) (s : State σ) : Prop := s.page = Page.ofMarks width s.marks.reverse

theorem steps_pageOf (g : Generator) (width : Nat) :
    Steps g fun s t : State σ => PageOf width s → PageOf width t where
  refl _ h := h
  trans h h' hs := h' (h hs)
  draw _ _ h := h
  write s m h := by
    have hmarks : (s.written m).marks.reverse = s.marks.reverse ++ [m] := List.reverse_cons
    rw [PageOf, hmarks, Page.ofMarks_append, ← h]
    rfl
  recur _ _ h := h
  truncate _ _ _ _ _ h := h
  layer _ _ h := h

/-- No truncation is forgotten. -/
theorem steps_truncations_le (g : Generator) :
    Steps g fun s t : State σ => s.stats.truncations ≤ t.stats.truncations where
  refl _ := Nat.le_refl _
  trans := Nat.le_trans
  draw _ _ := Nat.le_refl _
  write _ _ := Nat.le_refl _
  recur _ _ := Nat.le_refl _
  truncate s _ _ _ _ := Nat.le_succ s.stats.truncations
  layer _ _ := Nat.le_refl _

/-- Where every rule has something to fall back on, nothing is cut off. -/
theorem steps_truncations_eq {g : Generator}
    (h : ∀ name r, g.grammar.rule? name = some r → r.nonRecursive ≠ []) :
    Steps g fun s t : State σ => t.stats.truncations = s.stats.truncations where
  refl _ := rfl
  trans h h' := h'.trans h
  draw _ _ := rfl
  write _ _ := rfl
  recur _ _ := rfl
  truncate _ _ _ hrule hnone := absurd hnone (h _ _ hrule)
  layer _ _ := rfl

/-! ## What a run writes is derived -/

variable [RandomSource σ] {g : Generator} {patience maxDepth n : Nat} {outside : Option String}

/-- Expansions that derive the symbols they expand, unless they cut off a rule. -/
def Derived (g : Generator) (outside : Option String)
    (expand : String → Nat → Option String → Expand σ Unit) : Prop :=
  ∀ path name depth s t, expand name depth (context outside path) s = .done ((), t) →
    t.stats.truncations = s.stats.truncations →
      ∃ d, Derives g outside path [.symbol name] [d] ∧ Wrote s t d.yield

theorem derives_element {expand : String → Nat → Option String → Expand σ Unit}
    (hexpand : Derived g outside expand) {path : List Production} {self : String} {depth : Nat}
    {e : Element} (h : ElementRun g patience expand self depth (context outside path) s e t)
    (htruncations : t.stats.truncations = s.stats.truncations) :
    ∃ d, Derives g outside path [e] [d] ∧ Wrote s t d.yield := by
  cases h with
  | literal text =>
    refine ⟨.word text, .literal text .nil, ?_⟩
    have hwrote := wrote_written s (Mark.ofLiteral text)
    rwa [Mark.text_ofLiteral] at hwrote
  | @word name hname => exact ⟨.word name, .terminal hname .nil, wrote_written s (.word name)⟩
  | @value name value source hname hvalue =>
    have hprints : (g.sampling.sampler name (context outside path)).Prints value :=
      ⟨σ, inferInstance, patience, s.source, source, hvalue⟩
    exact ⟨.word value, .placeholder hname hprints .nil,
      wrote_written { s with source } (.value value)⟩
  | self _ hrun =>
    obtain ⟨d, hd, hwrote⟩ := hexpand path self _ _ t hrun htruncations
    exact ⟨d, hd, hwrote⟩
  | other _ hrun => exact hexpand path _ depth s t hrun htruncations

/-- What elements wrote is derived, element by element. -/
theorem derives_elements {expand : String → Nat → Option String → Expand σ Unit}
    (hexpand : Derived g outside expand)
    (hcount : ∀ name depth param, Relates
      (fun s t : State σ => s.stats.truncations ≤ t.stats.truncations) (expand name depth param))
    {path : List Production} {self : String} {depth : Nat} (es : List Element) :
    ∀ s t, elements g patience expand self depth (context outside path) es s = .done ((), t) →
      t.stats.truncations = s.stats.truncations →
        ∃ ds, Derives g outside path es ds ∧ Wrote s t (Derivation.yieldAll ds) := by
  induction es with
  | nil =>
    intro s t h _
    obtain ⟨-, rfl⟩ := pure_eq_done.1 h
    exact ⟨[], .nil, wrote_nil rfl⟩
  | cons e es ih =>
    intro s t h htruncations
    obtain ⟨u, he, hes⟩ := elements_cons_eq_done h
    have hsteps := steps_truncations_le (σ := σ) g
    -- Truncations are never taken back, so neither part has one.
    have hhead : s.stats.truncations ≤ u.stats.truncations := hsteps.element hcount he
    have htail : u.stats.truncations ≤ t.stats.truncations :=
      hsteps.elements hcount es u () t hes
    obtain ⟨d, hd, hwrote⟩ := derives_element hexpand he (by omega)
    obtain ⟨ds, hds, hwrote'⟩ := ih u t hes (by omega)
    refine ⟨d :: ds, hd.cons hds, ?_⟩
    rw [Derivation.yieldAll]
    exact hwrote.trans hwrote'

/-- What a symbol wrote is derived from the symbol. -/
theorem derives_symbol (hplain : g.config.strategies = ∅) (n : Nat) :
    Derived g outside (symbol g patience maxDepth n : String → Nat → Option String →
      Expand σ Unit) := by
  induction n with
  | zero =>
    intro path name depth s t h
    cases h
  | succ n ih =>
    intro path name depth s t h htruncations
    cases symbol_symbolRun h with
    | undefined hrule =>
      exact ⟨_, .undefined hrule .nil, wrote_written s (.word ("<" ++ name ++ ">"))⟩
    | strategy _ hplan => simp [hplain] at hplan
    | truncated =>
      have hone : s.stats.truncations + 1 = s.stats.truncations := htruncations
      omega
    | @alternative r i p source t layerType hrule _ hp _ hrun _ =>
      rw [production, ← context_cons] at hrun
      obtain ⟨children, hchildren, ms, hmarks, hwords⟩ :=
        derives_elements ih ((steps_truncations_le g).symbol n) p.elements _ t hrun htruncations
      refine ⟨.node name children, .symbol hrule (List.mem_of_getElem? hp) hchildren .nil, ?_⟩
      rw [Derivation.yield]
      exact ⟨ms, hmarks, hwords⟩

/-! ## Sentences -/

/-- What the expansion of a symbol writes, where nothing is cut off, is derived from the symbol;
and nothing is cut off if every rule has an alternative without its own symbol. -/
theorem exists_derivation (hplain : g.config.strategies = ∅) (hbuilt : g.grammar.Built)
    (limits : Limits) (name : String) (depth maxDepth : UInt64) (source rest : σ) (e : Expansion)
    (h : g.expand limits name depth maxDepth source = .ok (.done (e, rest))) :
    e.text = String.ofList (tidy (Page.ofMarks g.config.indentWidth e.marks).text) ∧
      (e.stats.truncations = 0 →
        ∃ d, Derives g none [] [.symbol name] [d] ∧ d.yield = wordsOf e.marks) ∧
      ((∀ self r, g.grammar.rule? self = some r →
        ∃ p ∈ r.productions, .symbol self ∉ p.elements) → e.stats.truncations = 0) := by
  obtain ⟨t, hrun, hfinish⟩ := expand_eq_done h
  cases hfinish
  refine ⟨?_, ?_, ?_⟩
  · have hpage := (steps_pageOf g g.config.indentWidth).symbol _ _ _ _ _ _ _ hrun rfl
    show String.ofList (tidy t.page.text) = _
    rw [hpage]
  · intro htruncations
    have hderived : Derived g none (symbol g limits.patience maxDepth.toNat limits.descent :
        String → Nat → Option String → Expand σ Unit) := derives_symbol hplain _
    obtain ⟨d, hd, ms, hmarks, hwords⟩ := hderived [] name depth.toNat _ t hrun htruncations
    refine ⟨d, hd, ?_⟩
    have hreverse : t.marks.reverse = ms := by
      rw [hmarks]
      simp [start]
    rw [← hwords, ← hreverse]
  · intro hfallback
    have hnone : ∀ self r, g.grammar.rule? self = some r → r.nonRecursive ≠ [] := by
      intro self r hr
      obtain ⟨p, hp, hself⟩ := hfallback self r hr
      obtain ⟨i, hi, hget⟩ := List.getElem_of_mem hp
      refine List.ne_nil_of_mem (a := i) ((hbuilt.mem_nonRecursive_iff hr).2 ⟨p, ?_, hself⟩)
      rw [List.getElem?_eq_getElem hi, hget]
    exact (steps_truncations_eq hnone).symbol _ _ _ _ _ _ _ hrun

/-- A generator of lists, where an item is a number of units or a symbol without a rule. -/
def itemLists : Generator :=
  { ofGrammar (Grammar.ofAlternatives
      [("list", ["<item>"]), ("list", ["<item>", "\",\"", "<list>"]),
       ("item", ["\"units\"", "\"=\"", "INT"]), ("item", ["<other>"])]) with
    config := { Config.standard with strategies := ∅ } }

/-- Words that choose a list of two items, one of each kind. -/
def itemWords : List UInt64 := [0x8000000000000000, 0, 0, 0, 0x8000000000000000]

/-- What an expansion gives, if it is done. -/
def done? {α : Type} : Except GrammarError (Outcome α) → Option α
  | .ok (.done a) => some a
  | .ok (.fault _) => none
  | .ok .undrawn => none
  | .ok .unfinished => none
  | .error _ => none

theorem eq_ok_of_done?_eq_some {α : Type} {x : Except GrammarError (Outcome α)} {a : α}
    (h : done? x = some a) : x = .ok (.done a) := by
  cases x with
  | error e => simp [done?] at h
  | ok outcome => cases outcome <;> simp_all [done?]

/-- A check of what an expansion gives says also that it is done. -/
theorem exists_done_of_any {α : Type} {x : Except GrammarError (Outcome α)} {p : α → Bool}
    (h : (done? x).any p = true) : ∃ a, x = .ok (.done a) ∧ p a = true := by
  obtain ⟨a, hdone, ha⟩ := (Option.any_eq_true _ _).1 h
  exact ⟨a, eq_ok_of_done?_eq_some hdone, ha⟩

theorem exists_derivation_itemLists : ∃ e rest,
    itemLists.expand ⟨8, 5⟩ "list" 0 2 (WordSource.ofWords itemWords) = .ok (.done (e, rest)) ∧
      wordsOf e.marks = ["units", "=", "16", ",", "<other>"] ∧
      ∃ d, Derives itemLists none [] [.symbol "list"] [d] ∧ d.yield = wordsOf e.marks := by
  have hrun : (done? (itemLists.expand ⟨8, 5⟩ "list" 0 2 (WordSource.ofWords itemWords))).any
      (fun r => r.1.stats.truncations == 0 &&
        wordsOf r.1.marks == ["units", "=", "16", ",", "<other>"]) = true := by
    decide +kernel
  obtain ⟨⟨e, rest⟩, hdone, hexpansion⟩ := (Option.any_eq_true _ _).1 hrun
  have h := eq_ok_of_done?_eq_some hdone
  rw [Bool.and_eq_true, beq_iff_eq, beq_iff_eq] at hexpansion
  have hbuilt : itemLists.grammar.Built := Grammar.built_ofAlternatives _
  obtain ⟨-, hderived, -⟩ := exists_derivation rfl hbuilt ⟨8, 5⟩ "list" 0 2 _ rest e h
  exact ⟨e, rest, h, hexpansion.2, hderived hexpansion.1⟩

end Generator

end NeuralArch
