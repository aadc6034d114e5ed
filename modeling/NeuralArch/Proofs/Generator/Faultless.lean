import NeuralArch.Generator
import NeuralArch.Proofs.Generator.Depth
import NeuralArch.Proofs.Generator.Subset
import NeuralArch.Proofs.Grammar.Construction
import NeuralArch.Proofs.Layout.Settled
import NeuralArch.Proofs.Number.FloatArithmetic
import NeuralArch.Proofs.Sampling.Solid

/-!
# Where expansions fault

Whatever grammar is expanded from whatever symbol, no draw is made from nothing,
no count falls below zero, and the text of a layer type is cut out at a place
between two characters.  The last of these needs an invariant, since what is
written inside a layer type may take back the line feed that stands before it:
the page is settled, and its boundaries stay boundaries.

One fault is left.  An alternative that is chosen refers to its own symbol only
below the bound, so there is a next depth; but a strategy writes the alternatives
of its item at any depth, and an item that refers to itself may stand at the last
one.  In a build with checks that is a fault, where such strategies stand inside
one another often enough to get there from the depth or from the bound.

* `Risks`, `Safe` — computations that stop at no faults but some, and expansions
  that do so from a settled page, and leave it settled.
* `safe_asLayerType` — the type of a layer can be cut out.
* `Overruns` — when the depth runs past the last word.
* `safe_symbol` — the expansion of a symbol, by induction on the descent.
* `trimmed_ofText` — words of a grammar's text have no blanks.
* `depthOverflow_of_expand` — the faults of expansions of built grammars.
-/

namespace NeuralArch

/-! ## Computations that stop at some faults only -/

namespace Outcome

variable {α β : Type} {F : Fault → Prop} {P Q : α → Prop} {R : β → Prop}

/-- If a computation is done, then with a value that has a property; if it faults, then at one of
some faults. -/
def Risks (x : Outcome α) (F : Fault → Prop) (Q : α → Prop) : Prop :=
  match x with
  | done a => Q a
  | fault f => F f
  | undrawn => True
  | unfinished => True

theorem Risks.mono {x : Outcome α} (h : x.Risks F P) (hPQ : ∀ a, P a → Q a) : x.Risks F Q := by
  cases x with
  | done a => exact hPQ a h
  | fault f => exact h
  | undrawn => trivial
  | unfinished => trivial

theorem Risks.bind {x : Outcome α} {f : α → Outcome β} (h : x.Risks F P)
    (hf : ∀ a, P a → (f a).Risks F R) : (x >>= f).Risks F R := by
  cases x with
  | done a => exact hf a h
  | fault f => exact h
  | undrawn => trivial
  | unfinished => trivial

theorem Yields.risks {x : Outcome α} (h : x.Yields Q) : x.Risks F Q := by
  cases x with
  | done a => exact h
  | fault f => exact h.elim
  | undrawn => trivial
  | unfinished => trivial

end Outcome

namespace Generator

open Layout

variable {σ α β : Type} {F : Fault → Prop}

/-- From a settled page an expansion stops at some faults only; it leaves the page settled, the
boundaries of its text in place, and gives a value with a property. -/
def Safe (F : Fault → Prop) (x : Expand σ α) (Q : α → Prop) : Prop :=
  ∀ s : State σ, s.page.Settled → (x s).Risks F fun r =>
    r.2.page.Settled ∧ Page.Keeps s.page.text r.2.page.text ∧ Q r.1

/-! ## Steps -/

variable {P Q : α → Prop} {R : β → Prop}

theorem safe_pure {a : α} (h : Q a) : Safe F (pure a : Expand σ α) Q :=
  fun _ hs => ⟨hs, .refl _, h⟩

theorem Safe.bind {x : Expand σ α} {f : α → Expand σ β} (h : Safe F x P)
    (hf : ∀ a, P a → Safe F (f a) R) : Safe F (x >>= f) R := by
  intro s hs
  refine (h s hs).bind fun r hr => ?_
  obtain ⟨hsettled, hkeeps, hP⟩ := hr
  refine (hf r.1 hP r.2 hsettled).mono fun r' hr' => ?_
  obtain ⟨hsettled', hkeeps', hR⟩ := hr'
  exact ⟨hsettled', hkeeps.trans hkeeps', hR⟩

theorem Safe.map {x : Expand σ α} {f : α → β} (h : Safe F x P) (hf : ∀ a, P a → R (f a)) :
    Safe F (f <$> x) R := by
  rw [map_eq_pure_bind]
  exact h.bind fun a ha => safe_pure (hf a ha)

theorem safe_draw {d : Draw σ α} (h : d.Gives Q) : Safe F (Expand.draw d) Q := by
  intro s hs
  refine (h s.source).risks.bind fun r hr => ?_
  exact ⟨hs, .refl _, hr⟩

theorem safe_get : Safe F (get : Expand σ (State σ)) fun _ => True :=
  fun _ hs => ⟨hs, .refl _, trivial⟩

theorem safe_count (f : Stats → Stats) : Safe F (Expand.count f : Expand σ Unit) fun _ => True :=
  fun _ hs => ⟨hs, .refl _, trivial⟩

theorem safe_write {m : Mark} (hm : Page.Trimmed m) :
    Safe F (Expand.write m : Expand σ Unit) fun _ => True :=
  fun _ hs => ⟨Page.settled_mark hs hm, Page.keeps_mark hs m, trivial⟩

/-- Going deeper risks that there is no next depth. -/
theorem safe_deeper {g : Generator} {depth : Nat}
    (h : g.next? depth = none → F .depthOverflow) :
    Safe F (deeper g depth : Expand σ Nat) fun below => g.next? depth = some below := by
  rw [deeper]
  cases hnext : g.next? depth with
  | some below => exact safe_pure rfl
  | none => exact fun _ _ => h hnext

theorem safe_alternative {r : Rule} {i : Nat} (h : i < r.productions.length) :
    Safe F (alternative r i : Expand σ Production) (r.productions[i]? = some ·) := by
  rw [alternative, List.getElem?_eq_getElem h]
  exact safe_pure rfl

theorem safe_mapM_alternative {r : Rule} {is : List Nat}
    (h : ∀ i ∈ is, i < r.productions.length) :
    Safe F (is.mapM (alternative r) : Expand σ (List Production)) fun ps =>
      ∀ p ∈ ps, p ∈ r.productions := by
  induction is with
  | nil => exact safe_pure (by simp)
  | cons i is ih =>
    rw [List.forall_mem_cons] at h
    rw [List.mapM_cons]
    refine (safe_alternative h.1).bind fun p hp => (ih h.2).bind fun ps hps => ?_
    exact safe_pure (List.forall_mem_cons.2 ⟨List.mem_of_getElem? hp, hps⟩)

/-- What is written since the page had some size can be cut out. -/
theorem safe_asLayerType {body : Expand σ Unit} (h : Safe F body fun _ => True) :
    Safe F (asLayerType body) fun _ => True := by
  intro s hs
  rw [asLayerType, Draw.get_bind]
  refine (h s hs).bind fun r hr => ?_
  obtain ⟨u, t⟩ := r
  obtain ⟨hsettled, hkeeps, -⟩ := hr
  obtain ⟨cs, hcs⟩ := Page.exists_textFrom? (hkeeps _ (Page.isBoundary_size s.page))
  dsimp only at hcs ⊢
  rw [Draw.get_bind, hcs]
  exact ⟨hsettled, hkeeps, trivial⟩

/-! ## Words without blanks at their ends -/

/-- A trimmed text has no blank at its end. -/
theorem all_getLast?_of_trim_eq {cs : List Char} (h : Text.trim cs = cs) :
    cs.getLast?.all (!Text.isBlank ·) = true := by
  obtain ⟨blanks, hsplit, hblanks⟩ := Text.exists_trimEnd_append cs
  have hle : (Text.trim cs).length ≤ (Text.trimEnd cs).length :=
    (List.dropWhile_sublist _).length_le
  have hlength := congrArg List.length hsplit
  rw [h] at hle
  rw [List.length_append] at hlength
  have hend : Text.trimEnd cs = cs := by
    have hnil : blanks = [] := List.eq_nil_of_length_eq_zero (by omega)
    rw [hnil, List.append_nil] at hsplit
    exact hsplit.symm
  have hhead := List.head?_dropWhile_not Text.isBlank cs.reverse
  rw [← List.reverse_reverse (cs.reverse.dropWhile Text.isBlank), ← Text.trimEnd, hend,
    List.head?_reverse] at hhead
  cases hlast : cs.getLast? with
  | none => rfl
  | some c =>
    rw [hlast] at hhead
    simpa using hhead

theorem trim_eq_of_not_isBlank {cs : List Char} (h : ∀ c ∈ cs, Text.isBlank c = false) :
    Text.trim cs = cs := by
  have hdrop : ∀ l : List Char, (∀ c ∈ l, Text.isBlank c = false) →
      l.dropWhile Text.isBlank = l := by
    intro l hl
    cases l with
    | nil => rfl
    | cons c l => exact List.dropWhile_cons_of_neg (by simp [hl c (List.mem_cons_self ..)])
  rw [Text.trim, Text.trimEnd, hdrop cs.reverse (by simpa using h), List.reverse_reverse,
    Text.trimStart, hdrop cs h]

end Generator

/-- Whether what an element writes has no blank at its ends. -/
def Element.Trimmed : Element → Prop
  | literal text => Text.trim text.toList = text.toList
  | terminal name => Text.trim name.toList = name.toList
  | symbol _ => True

instance (e : Element) : Decidable e.Trimmed := by
  cases e <;> unfold Element.Trimmed <;> infer_instance

namespace Grammar

/-- Whether no literal and no terminal of a grammar has a blank at its ends. -/
def Trimmed (g : Grammar) : Prop :=
  ∀ s r, g.rule? s = some r → ∀ p ∈ r.productions, ∀ e ∈ p.elements, e.Trimmed

theorem trimmed_ofToken {token : String} (h : ∀ c ∈ token.toList, Text.isBlank c = false) :
    (Element.ofToken token).Trimmed := by
  have hinside : ∀ {first last : Char} {text : List Char},
      Element.inside? first last token.toList = some text → Text.trim text = text := by
    intro first last text hinside
    apply Generator.trim_eq_of_not_isBlank
    intro c hc
    apply h
    unfold Element.inside? at hinside
    split at hinside
    · simp at hinside
    · next d ds hds =>
      split at hinside
      · rw [← Option.some.inj hinside] at hc
        rw [hds]
        exact List.mem_cons_of_mem _ (List.mem_of_mem_dropLast hc)
      · simp at hinside
  rw [Element.ofToken]
  split
  · trivial
  · split
    · next text htext =>
      show Text.trim (String.ofList text).toList = _
      rw [String.toList_ofList]
      exact hinside htext
    · split
      · next text htext =>
        show Text.trim (String.ofList text).toList = _
        rw [String.toList_ofList]
        exact hinside htext
      · exact Generator.trim_eq_of_not_isBlank h

theorem trimmed_of_all {g : Grammar} (h : ∀ rule ∈ g.rules.toList, ∀ p ∈ rule.2.productions,
    ∀ e ∈ p.elements, e.Trimmed) : g.Trimmed :=
  fun s r hr => h (s, r) (Std.ExtTreeMap.mem_toList_iff_getElem?_eq_some.2 hr)

theorem Trimmed.push {g : Grammar} (hg : g.Trimmed) (s : String) {tokens : List String}
    (htokens : ∀ t ∈ tokens, ∀ c ∈ t.toList, Text.isBlank c = false) :
    (g.push s tokens).Trimmed := by
  intro t r hr
  rw [rule?_push] at hr
  split at hr
  · rw [← Option.some.inj hr]
    intro p hp
    rcases List.mem_append.1 hp with hp | hp
    · cases hold : g.rule? s with
      | none => simp [hold, Rule.empty] at hp
      | some old => exact hg s old hold p (by simpa [hold] using hp)
    · rw [List.mem_singleton.1 hp]
      intro e he
      obtain ⟨token, htoken, rfl⟩ := List.mem_map.1 he
      exact trimmed_ofToken (htokens token (List.mem_filter.1 htoken).1)
  · exact hg t r hr

theorem Trimmed.discard {g : Grammar} (hg : g.Trimmed) (s : String) : (g.discard s).Trimmed := by
  intro t r hr
  rw [rule?_discard] at hr
  split at hr
  · simp at hr
  · exact hg t r hr

end Grammar

namespace Generator

open Layout

variable {σ : Type}

/-! ## Chances -/

/-- What is neither below zero nor above one is finite, if it is a number. -/
theorem exists_toRat?_of_between {p : Float} (h : p.isNaN = false) (hzero : ¬ p < 0)
    (hone : ¬ 1 < p) : ∃ q, Number.toRat? p = some q := by
  rw [Number.lt_iff_compare] at hzero hone
  change p.toModel.unpack.isNaN = false at h
  show ∃ q, Number.rat? p.toModel.unpack = some q
  cases hp : p.toModel.unpack with
  | zero s => exact ⟨_, rfl⟩
  | finite s m e hm => exact ⟨_, rfl⟩
  | notANumber =>
    rw [hp] at h
    exact absurd h (by decide)
  | infinity s =>
    rw [hp] at hzero hone
    cases s with
    | positive => exact absurd rfl hone
    | negative => exact absurd rfl hzero

/-- What a number is clamped to is a chance. -/
theorem isChance_clamp {p : Float} (h : p.isNaN = false) :
    (clamp p == 1 || (0 ≤ clamp p && clamp p < 1)) = true := by
  unfold clamp
  split
  · rfl
  · next hzero =>
    split
    · rfl
    · next hone =>
      obtain ⟨q, hq⟩ := exists_toRat?_of_between h hzero hone
      have hrat0 : Number.toRat? 0 = some 0 := rfl
      have hrat1 : Number.toRat? 1 = some ((1 : ℕ) : ℚ) := Number.toRat?_ofNat (by norm_num)
      rw [Number.lt_iff_toRat hq hrat0, not_lt] at hzero
      rw [Number.lt_iff_toRat hrat1 hq, not_lt] at hone
      rcases hone.lt_or_eq with hlt | rfl
      · have hle : (0 : Float) ≤ p := (Number.le_iff_toRat hrat0 hq).2 hzero
        have hlt : p < 1 := (Number.lt_iff_toRat hq hrat1).2 hlt
        simp [hle, hlt]
      · rw [(Number.beq_iff_toRat hq hrat1).2 rfl, Bool.true_or]

variable [RandomSource σ]

theorem gives_isWritten_clamp (required optional : List String) {probability : Float}
    (h : probability.isNaN = false) (p : Production) :
    (isWritten required optional (clamp probability) p : Draw σ Bool).Gives fun _ => True := by
  rw [isWritten]
  split
  · exact Draw.gives_pure trivial
  · split
    · exact Draw.gives_pure trivial
    · split
      · exact Draw.gives_chance (isChance_clamp h)
      · exact Draw.gives_pure trivial

/-! ## Elements and productions -/

/-- Whether every probability of a configuration is a number. -/
def Config.Numeric (c : Config) : Prop :=
  ∀ (name item : String) (required optional : List String) (probability : Float),
    c.strategies[name]? = some (.output item required optional probability) →
      probability.isNaN = false

/-- What an expansion relies on: its grammar is built and its words trimmed, its probabilities are
numbers, and its samplers those of the built-in table. -/
structure Sound (g : Generator) : Prop where
  built : g.grammar.Built
  trimmed : g.grammar.Trimmed
  numeric : g.config.Numeric
  sampling : g.sampling = SamplingTable.standard

section

variable {g : Generator} {patience maxDepth depth : Nat} {param : Option String}
  {F : Fault → Prop} {expand : String → Nat → Option String → Expand σ Unit} {self : String}

theorem Sound.safe_terminal (hg : g.Sound) {name : String}
    (hname : Text.trim name.toList = name.toList) :
    Safe F (terminal g patience name param : Expand σ Unit) fun _ => True := by
  rw [terminal]
  split
  · have hgives := @gives_solid σ _ _ (sound_standard name param) patience
    rw [hg.sampling]
    refine (safe_draw hgives).bind fun value hvalue => safe_write ?_
    exact all_getLast?_of_trim_eq (trim_eq_of_not_isBlank hvalue)
  · exact safe_write (all_getLast?_of_trim_eq hname)

/-- The elements of an alternative are trimmed, its symbols are safe at their depths, and it
refers to its own symbol where there is a next depth, or where a fault for want of one is among
the admitted. -/
structure SafeInside (F : Fault → Prop) (g : Generator)
    (expand : String → Nat → Option String → Expand σ Unit) (self : String) (depth : Nat)
    (es : List Element) : Prop where
  trimmed : ∀ e ∈ es, e.Trimmed
  deeper : .symbol self ∈ es → g.next? depth = none → F .depthOverflow
  symbols : ∀ y, .symbol y ∈ es → ∀ below, g.depthInside? self depth y = some below →
    ∀ param, Safe F (expand y below param) fun _ => True

theorem Sound.safe_elements (hg : g.Sound) {es : List Element}
    (h : SafeInside F g expand self depth es) :
    Safe F (elements g patience expand self depth param es) fun _ => True := by
  induction es with
  | nil => exact safe_pure trivial
  | cons e es ih =>
    obtain ⟨htrimmed, hdeeper, hsymbols⟩ := h
    rw [List.forall_mem_cons] at htrimmed
    have hrest := ih ⟨htrimmed.2, fun hself => hdeeper (List.mem_cons_of_mem _ hself),
      fun y hy => hsymbols y (List.mem_cons_of_mem _ hy)⟩
    cases e with
    | literal text =>
      have hmark : Page.Trimmed (Mark.ofLiteral text) := by
        rw [Page.Trimmed, Mark.text_ofLiteral]
        exact all_getLast?_of_trim_eq htrimmed.1
      exact (safe_write hmark).bind fun _ _ => hrest
    | terminal name => exact (hg.safe_terminal htrimmed.1).bind fun _ _ => hrest
    | symbol name =>
      have hname := hsymbols name (List.mem_cons_self ..)
      rw [elements]
      split
      · next hself =>
        subst hself
        refine (safe_deeper (hdeeper (List.mem_cons_self ..))).bind fun below hbelow => ?_
        rw [← depthInside?_self name] at hbelow
        exact (safe_count _).bind fun _ _ => (hname below hbelow param).bind fun _ _ => hrest
      · next hne => exact (hname depth (depthInside?_of_ne hne) param).bind fun _ _ => hrest

theorem Sound.safe_productions (hg : g.Sound) {ps : List Production}
    (hps : ∀ p ∈ ps, SafeInside F g expand self depth p.elements) :
    Safe F (productions g patience expand self depth param ps) fun _ => True := by
  induction ps with
  | nil => exact safe_pure trivial
  | cons p ps ih =>
    rw [List.forall_mem_cons] at hps
    rw [productions]
    exact (hg.safe_elements hps.1).bind fun _ _ => ih hps.2

theorem Sound.safe_outputProductions (hg : g.Sound) (required optional : List String)
    {probability : Float} (hnumber : probability.isNaN = false) {ps : List Production}
    (hps : ∀ p ∈ ps, SafeInside F g expand self depth p.elements) :
    Safe F (outputProductions g patience expand self depth param required optional
      (clamp probability) ps) fun _ => True := by
  induction ps with
  | nil => exact safe_pure trivial
  | cons p ps ih =>
    rw [List.forall_mem_cons] at hps
    rw [outputProductions]
    refine (safe_draw (gives_isWritten_clamp required optional hnumber p)).bind fun written _ => ?_
    cases written with
    | true => exact (hg.safe_elements hps.1).bind fun _ _ => ih hps.2
    | false => exact ih hps.2

/-! ## Symbols -/

/-- An alternative is chosen among those that the rule has, at the bound among those that are not
self-recursive. -/
theorem Sound.safe_chooseAlternative (hg : g.Sound) {name : String} {r : Rule}
    (hrule : g.grammar.rule? name = some r) :
    Safe F (chooseAlternative patience maxDepth depth r : Expand σ (Option Production))
      fun choice => ∀ p ∈ choice, ∃ i, r.productions[i]? = some p ∧
        (r.isRecursive = true → maxDepth ≤ depth → i ∈ r.nonRecursive) := by
  obtain ⟨alternatives, hne, hr⟩ := hg.built.regular name r hrule
  have hsome : ∀ {i : Nat}, i < r.productions.length →
      (r.isRecursive = true → maxDepth ≤ depth → i ∈ r.nonRecursive) →
      Safe F (some <$> alternative r i : Expand σ (Option Production)) fun choice =>
        ∀ p ∈ choice, ∃ i, r.productions[i]? = some p ∧
          (r.isRecursive = true → maxDepth ≤ depth → i ∈ r.nonRecursive) := by
    intro i hi hbound
    refine (safe_alternative hi).map fun p hp q hq => ?_
    obtain rfl := Option.some.inj hq
    exact ⟨i, hp, hbound⟩
  rw [chooseAlternative]
  split
  · refine (safe_draw (Draw.gives_choose_mem patience r.nonRecursive)).bind fun choice hchoice => ?_
    cases choice with
    | none => exact (safe_count _).bind fun _ _ => safe_pure (by simp)
    | some i =>
      have hi := hchoice i rfl
      obtain ⟨p, hp, -⟩ := (hg.built.mem_nonRecursive_iff hrule).1 hi
      obtain ⟨hlt, -⟩ := List.getElem?_eq_some_iff.1 hp
      exact hsome hlt fun _ _ => hi
  · next hcond =>
    have hpos : 0 < r.productions.length := by
      rw [hr, Rule.productions_ofProductions, List.length_map]
      exact List.length_pos_iff.2 hne
    refine (safe_draw (Draw.gives_below patience .word hpos)).bind fun i hi => hsome hi ?_
    intro hrec hdepth
    rw [hrec, Bool.true_and, decide_eq_true hdepth] at hcond
    exact absurd rfl hcond

/-- A strategy is safe if the alternatives of its item are. -/
theorem Sound.safe_strategy (hg : g.Sound) {name : String} {plan : Strategy}
    (hplan : g.config.strategies[name]? = some plan)
    (hitem : ∀ r, g.grammar.rule? plan.item = some r → ∀ p ∈ r.productions,
      SafeInside F g expand plan.item depth p.elements) :
    Safe F (strategy g patience expand depth param plan) fun _ => True := by
  rw [strategy]
  split
  · exact safe_pure trivial
  · next r hr =>
    have hps := hitem r hr
    cases plan with
    | allRequired item => exact hg.safe_productions hps
    | output item required optional probability =>
      exact hg.safe_outputProductions required optional (hg.numeric _ _ _ _ _ hplan) hps
    | subset item min max =>
      refine safe_get.bind fun state _ => ?_
      refine (safe_draw (gives_chooseSubset g patience state.layerType r.productions min max)).bind
        fun is his => ?_
      have hlt : ∀ i ∈ is, i < r.productions.length := fun i hi =>
        List.mem_range.1 (List.mem_filter.1 (his.admitted i hi)).1
      refine (safe_mapM_alternative hlt).bind fun ps hsubset => ?_
      exact hg.safe_productions fun p hp => hps p (hsubset p hp)

/-- The word that is written for a symbol without a rule ends with a bracket. -/
theorem trimmed_unknown (name : String) : Page.Trimmed (.word ("<" ++ name ++ ">")) := by
  show (("<" ++ name ++ ">").toList.getLast?).all (!Text.isBlank ·) = true
  rw [String.toList_append, List.getLast?_append]
  rfl

/-- The fault for want of a next depth, in a build with checks, below a symbol where strategies
whose items refer to themselves stand inside one another as often as it takes to get past the last
word. -/
structure Overruns (g : Generator) (name : String) (depth maxDepth : Nat) (f : Fault) : Prop where
  fault : f = .depthOverflow
  checked : g.overflow = .faults
  reach : ∀ rank, Nesting g name rank →
    Number.wordCount ≤ max depth maxDepth + rank name

/-- A symbol overruns if one that it leads to does, at a depth that is no greater than its own is
with what its rank is lower. -/
theorem Overruns.of_leadsTo {name y : String} {below : Nat} {f : Fault}
    (h : Overruns g y below maxDepth f) (hleads : LeadsTo g name y)
    (hdepth : ∀ rank, Nesting g name rank →
      below + rank y ≤ max depth maxDepth + rank name) :
    Overruns g name depth maxDepth f where
  fault := h.fault
  checked := h.checked
  reach rank hrank := by
    have hreach := h.reach rank (hrank.of_leadsTo hleads)
    have hle := hdepth rank hrank
    have hfalls := hrank.leadsTo .refl hleads
    omega

omit [RandomSource σ] in
/-- Inside an alternative of an item a symbol goes deeper only where the rank is lower. -/
theorem SafeInside.of_item (hg : g.Sound) {name : String} {plan : Strategy} {r : Rule}
    {p : Production} (hplan : g.config.strategies[name]? = some plan)
    (hrule : g.grammar.rule? plan.item = some r) (hp : p ∈ r.productions)
    (hF : ∀ f, Overruns g name depth maxDepth f → F f)
    (hexpand : ∀ y below param, (∀ f, (g.grammar.rule? y).isSome = true →
      Overruns g y below maxDepth f → F f) → Safe F (expand y below param) fun _ => True) :
    SafeInside F g expand plan.item depth p.elements where
  trimmed := hg.trimmed _ r hrule p hp
  deeper hself hnext := by
    obtain ⟨hlast, hchecked⟩ := next?_eq_none_iff.1 hnext
    refine hF _ ⟨rfl, hchecked, fun rank hrank => ?_⟩
    have hlt := hrank.item .refl hplan hrule hp hself
    omega
  symbols y hy below hbelow param := by
    refine hexpand y below param fun f htarget hover => hF f ?_
    have hleads : LeadsTo g name y := .item hplan hrule hp hy htarget
    refine hover.of_leadsTo hleads fun rank hrank => ?_
    have hfalls := hrank.leadsTo .refl hleads
    by_cases hself : y = plan.item
    · subst hself
      have hle := le_of_next? (depthInside?_self (g := g) plan.item ▸ hbelow)
      have hlt := hrank.item .refl hplan hrule hp hy
      omega
    · rw [depthInside?_of_ne hself] at hbelow
      obtain rfl := Option.some.inj hbelow
      omega

omit [RandomSource σ] in
/-- Inside an alternative that is chosen, the symbol goes deeper only below the bound. -/
theorem SafeInside.of_chosen (hg : g.Sound) (hmax : maxDepth < Number.wordCount) {name : String}
    {r : Rule} {i : Nat} {p : Production} (hplan : g.config.strategies[name]? = none)
    (hrule : g.grammar.rule? name = some r) (hp : r.productions[i]? = some p)
    (hbound : r.isRecursive = true → maxDepth ≤ depth → i ∈ r.nonRecursive)
    (hF : ∀ f, Overruns g name depth maxDepth f → F f)
    (hexpand : ∀ y below param, (∀ f, (g.grammar.rule? y).isSome = true →
      Overruns g y below maxDepth f → F f) → Safe F (expand y below param) fun _ => True) :
    SafeInside F g expand name depth p.elements where
  trimmed := hg.trimmed name r hrule p (List.mem_of_getElem? hp)
  deeper hself hnext := by
    have hlt := lt_of_symbol_mem hg.built hrule hp hbound hself
    rw [next?_of_lt g (by omega)] at hnext
    cases hnext
  symbols y hy below hbelow param := by
    refine hexpand y below param fun f htarget hover => hF f ?_
    by_cases hself : y = name
    · subst hself
      have hlt := lt_of_symbol_mem hg.built hrule hp hbound hy
      have hle := le_of_next? (depthInside?_self (g := g) y ▸ hbelow)
      refine ⟨hover.fault, hover.checked, fun rank hrank => ?_⟩
      have hreach := hover.reach rank hrank
      omega
    · have hleads : LeadsTo g name y :=
        .alternative hplan hrule (List.mem_of_getElem? hp) hy hself htarget
      refine hover.of_leadsTo hleads fun rank hrank => ?_
      have hfalls := hrank.leadsTo .refl hleads
      rw [depthInside?_of_ne hself] at hbelow
      obtain rfl := Option.some.inj hbelow
      omega

/-- A symbol with a rule stops at no fault but the one of an overrun, and one without at none. -/
theorem Sound.safe_symbol (hg : g.Sound) (hmax : maxDepth < Number.wordCount) (n : Nat) :
    ∀ name depth param, (∀ f, (g.grammar.rule? name).isSome = true →
      Overruns g name depth maxDepth f → F f) →
    Safe F (symbol g patience maxDepth n name depth param : Expand σ Unit) fun _ => True := by
  induction n with
  | zero => exact fun _ _ _ _ _ _ => trivial
  | succ n ih =>
    intro name depth param hF
    rw [symbol]
    split
    · exact safe_write (trimmed_unknown name)
    · next hrule hplan =>
      refine hg.safe_strategy hplan fun r hr p hp => .of_item hg hplan hr hp (fun f => ?_) ih
      exact hF f (by rw [hrule]; rfl)
    · next r hrule hplan =>
      refine (hg.safe_chooseAlternative hrule).bind fun choice hchoice => ?_
      cases choice with
      | none => exact safe_pure trivial
      | some p =>
        obtain ⟨i, hp, hbound⟩ := hchoice p rfl
        have hbody : Safe F (production g patience (symbol g patience maxDepth n) name depth param
            p : Expand σ Unit) fun _ => True :=
          hg.safe_elements (.of_chosen hg hmax hplan hrule hp hbound
            (fun f => hF f (by rw [hrule]; rfl)) ih)
        dsimp only
        split
        · exact safe_pure trivial
        · split
          · exact safe_asLayerType hbody
          · exact hbody

end

end Generator

end NeuralArch
