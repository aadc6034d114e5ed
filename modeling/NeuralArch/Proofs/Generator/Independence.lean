import NeuralArch.Proofs.Generator.Course
import NeuralArch.Proofs.Generator.Derivation
import NeuralArch.Proofs.Generator.Termination
import NeuralArch.Proofs.Layout.Onto
import NeuralArch.Proofs.Sampling.Demand

/-!
# What depends on sampled values

Values and choices are drawn from one source.  So a table of samplers may be
exchanged without any effect on the choices only if the samplers take the same
from the source; and where a strategy looks at the type of a layer, no value may
be part of that.  Then two expansions take the same course, count the same, and
write the same but for the values.

* `Quiet` — symbols whose expansion writes no value.
* `Alike`, `Both` — states that differ in values only, and computations that
  keep them so.
* `both_trackLayerType` — the type of a layer shows no value.
* `both_trackSymbol` — the expansion of a symbol, by induction on the descent.
* `same_course` — two expansions with different tables.
-/

namespace NeuralArch.Generator

open Layout Relation

/-- The generator with another table of samplers. -/
def resample (g : Generator) (t : SamplingTable) : Generator := { g with sampling := t }

/-- Some strategy looks at the type of the layer being written. -/
def Config.Subsets (c : Config) : Prop :=
  ∃ (name item : String) (min max : Nat), c.strategies[name]? = some (.subset item min max)

/-! ## Expansions without values -/

/-- A symbol writes an alternative: one of its own, or with a strategy one of its item. -/
inductive Expands (g : Generator) (x : String) (p : Production) : Prop
  | alternative {r : Rule} (hplan : g.config.strategies[x]? = none)
      (hrule : g.grammar.rule? x = some r) (hp : p ∈ r.productions) : Expands g x p
  | item {plan : Strategy} {r : Rule} (hplan : g.config.strategies[x]? = some plan)
      (hrule : g.grammar.rule? plan.item = some r) (hp : p ∈ r.productions) : Expands g x p

/-- From a symbol nothing can be reached that is filled in with a value. -/
def Quiet (g : Generator) (name : String) : Prop :=
  ∀ x p terminal, ReflTransGen (LeadsTo g) name x → Expands g x p →
    .terminal terminal ∈ p.elements → terminal ∉ g.config.placeholders

theorem Quiet.of_leadsTo {g : Generator} {x y : String} (h : g.Quiet x) (hy : LeadsTo g x y) :
    g.Quiet y :=
  fun z p terminal hz => h z p terminal (.head hy hz)

/-- What a symbol reaches does not depend on the samplers. -/
theorem Quiet.resample {g : Generator} {name : String} (h : g.Quiet name) (t : SamplingTable) :
    (g.resample t).Quiet name := by
  have hleads : ∀ x y, LeadsTo (g.resample t) x y → LeadsTo g x y := by
    intro x y hxy
    cases hxy with
    | alternative hplan hrule hp hy hne htarget =>
      exact .alternative hplan hrule hp hy hne htarget
    | item hplan hrule hp hy htarget => exact .item hplan hrule hp hy htarget
  intro x p terminal hx hexpands
  have hown : Expands g x p := by
    cases hexpands with
    | alternative hplan hrule hp => exact .alternative hplan hrule hp
    | item hplan hrule hp => exact .item hplan hrule hp
  exact h x p terminal (ReflTransGen.mono hleads _ _ hx) hown

section

variable {σ : Type} {s t : State σ} {g : Generator} {patience maxDepth depth n : Nat}
  {param : Option String}

/-- Between two states no value was written. -/
def Quietly (s t : State σ) : Prop :=
  ∃ ms, t.marks = ms ++ s.marks ∧ ∀ v, .value v ∉ ms

theorem quietly_of_marks_eq (h : t.marks = s.marks) : Quietly s t := ⟨[], h, by simp⟩

theorem passes_quietly : Passes (Quietly : State σ → State σ → Prop) where
  refl _ := quietly_of_marks_eq rfl
  trans := by
    rintro s t u ⟨ms, hms, hquiet⟩ ⟨ms', hms', hquiet'⟩
    refine ⟨ms' ++ ms, by rw [hms', hms, List.append_assoc], fun v hv => ?_⟩
    rcases List.mem_append.1 hv with hv | hv
    · exact hquiet' v hv
    · exact hquiet v hv
  draw _ _ := quietly_of_marks_eq rfl

theorem ofLiteral_ne_value (text v : String) : Mark.ofLiteral text ≠ .value v := by
  unfold Mark.ofLiteral
  split
  · simp
  · split
    · simp
    · split <;> simp

theorem quietly_written (s : State σ) {m : Mark} (h : ∀ v, m ≠ .value v) :
    Quietly s (s.written m) :=
  ⟨[m], rfl, fun v hv => h v (List.mem_singleton.1 hv).symm⟩

variable [RandomSource σ] {expand : String → Nat → Option String → Expand σ Unit}
  {self : String}

theorem quietly_elements {es : List Element}
    (hes : ∀ name, .terminal name ∈ es → name ∉ g.config.placeholders)
    (hexpand : ∀ y, .symbol y ∈ es → ∀ depth param, Relates Quietly (expand y depth param)) :
    Relates Quietly (elements g patience expand self depth param es) := by
  refine passes_quietly.elements fun e he s t hrun => ?_
  cases hrun with
  | literal text => exact quietly_written s (ofLiteral_ne_value text)
  | word => exact quietly_written s (by simp)
  | value hname => exact absurd hname (hes _ he)
  | @self below t _ hrun =>
    have hquiet : Quietly { s with stats := s.stats.recur below } t :=
      hexpand _ he _ _ _ _ _ hrun
    exact hquiet
  | other _ hrun => exact hexpand _ he _ _ _ _ _ hrun

/-- An alternative of a symbol that reaches nothing with a value writes none. -/
theorem quietly_production {name : String} {r : Rule} {p : Production} (h : g.Quiet name)
    (hplan : g.config.strategies[name]? = none) (hrule : g.grammar.rule? name = some r)
    (hp : p ∈ r.productions) (hexpand : ∀ y, ((g.grammar.rule? y).isSome = true → g.Quiet y) →
      ∀ depth param, Relates Quietly (expand y depth param)) :
    Relates Quietly (production g patience expand name depth param p) := by
  have hnext : ∀ y, .symbol y ∈ p.elements → (g.grammar.rule? y).isSome = true → g.Quiet y := by
    intro y hy htarget
    by_cases hself : y = name
    · exact hself ▸ h
    · exact h.of_leadsTo (.alternative hplan hrule hp hy hself htarget)
  exact quietly_elements (fun terminal => h name p terminal .refl (.alternative hplan hrule hp))
    fun y hy => hexpand y (hnext y hy)

/-- A symbol that reaches nothing with a value writes none. -/
theorem quietly_symbol (n : Nat) : ∀ name,
    ((g.grammar.rule? name).isSome = true → g.Quiet name) → ∀ depth param,
    Relates Quietly (symbol g patience maxDepth n name depth param : Expand σ Unit) := by
  induction n with
  | zero =>
    intro name _ depth param s a t h
    cases h
  | succ n ih =>
    intro name hquiet depth param s a t h
    cases symbol_symbolRun h with
    | undefined => exact quietly_written s (by simp)
    | truncated => exact quietly_of_marks_eq rfl
    | @strategy r plan t hrule hplan hrun =>
      have hname := hquiet (by rw [hrule]; rfl)
      refine passes_quietly.strategy (fun r' hr' p hp => ?_) s () t hrun
      exact quietly_elements
        (fun terminal => hname name p terminal .refl (.item hplan hr' hp)) fun y hy =>
          ih y fun htarget => hname.of_leadsTo (.item hplan hr' hp hy htarget)
    | @alternative r i p source t layerType hrule hplan hp _ hrun _ =>
      have hname := hquiet (by rw [hrule]; rfl)
      have hquietly : Quietly { s with source } t :=
        quietly_production hname hplan hrule (List.mem_of_getElem? hp) ih _ () t hrun
      exact hquietly

/-- So does its alternative when the course is recorded. -/
theorem quietly_trackProduction {name : String} {r : Rule} {p : Production × Nat}
    (h : g.Quiet name) (hplan : g.config.strategies[name]? = none)
    (hrule : g.grammar.rule? name = some r) (hp : p.1 ∈ r.productions) :
    Relates Quietly (trackProduction g patience (trackSymbol g patience maxDepth n) name depth
      param p : Expand σ Course) := by
  intro s c t hrun
  have hforget := forget_eq_done.2 ⟨c, hrun⟩
  rw [forget_trackProduction, forget_trackSymbol_eq] at hforget
  exact quietly_production h hplan hrule hp (quietly_symbol n) s () t hforget

end

/-! ## Two computations -/

section

variable {σ α β : Type} {g : Generator}

/-- States that differ in their values only; also in the type of the layer, if no strategy looks
at it. -/
structure Alike (g : Generator) (s s' : State σ) : Prop where
  source : s.source = s'.source
  stats : s.stats = s'.stats
  marks : List.Forall₂ Mark.Similar s.marks s'.marks
  page : PageOf g.config.indentWidth s
  page' : PageOf g.config.indentWidth s'
  layerType : g.config.Subsets → s.layerType = s'.layerType

/-- From states that are alike, two computations that are done give the same, and states that
are alike. -/
def Both (g : Generator) (x x' : Expand σ α) : Prop :=
  ∀ s s', Alike g s s' → ∀ a t a' t', x s = .done (a, t) → x' s' = .done (a', t') →
    a = a' ∧ Alike g t t'

theorem both_pure (a : α) : Both g (pure a : Expand σ α) (pure a) := by
  intro s s' hs b t b' t' h h'
  obtain ⟨rfl, rfl⟩ := pure_eq_done.1 h
  obtain ⟨rfl, rfl⟩ := pure_eq_done.1 h'
  exact ⟨rfl, hs⟩

/-- What follows needs to keep states alike only behind what the first part gives. -/
theorem Both.bind {x x' : Expand σ α} {f f' : α → Expand σ β} (h : Both g x x')
    (hf : ∀ s a t, x s = .done (a, t) → Both g (f a) (f' a)) : Both g (x >>= f) (x' >>= f') := by
  intro s s' hs b t b' t' hrun hrun'
  obtain ⟨a, u, hx, hfa⟩ := bind_eq_done.1 hrun
  obtain ⟨a', u', hx', hfa'⟩ := bind_eq_done.1 hrun'
  obtain ⟨rfl, hu⟩ := h s s' hs a u a' u' hx hx'
  exact hf s a u hx u u' hu b t b' t' hfa hfa'

theorem Both.seq {x x' : Expand σ α} {f f' : α → Expand σ β} (h : Both g x x')
    (hf : ∀ a, Both g (f a) (f' a)) : Both g (x >>= f) (x' >>= f') :=
  h.bind fun _ a _ _ => hf a

theorem Both.map {x x' : Expand σ α} (h : Both g x x') (f : α → β) :
    Both g (f <$> x) (f <$> x') := by
  rw [map_eq_pure_bind, map_eq_pure_bind]
  exact h.seq fun a => both_pure (f a)

theorem both_draw (d : Draw σ α) : Both g (Expand.draw d) (Expand.draw d) := by
  intro s s' hs a t a' t' h h'
  obtain ⟨source, hd, rfl⟩ := draw_eq_done.1 h
  obtain ⟨source', hd', rfl⟩ := draw_eq_done.1 h'
  rw [hs.source, hd', Outcome.done.injEq, Prod.mk.injEq] at hd
  obtain ⟨rfl, rfl⟩ := hd
  exact ⟨rfl, rfl, hs.stats, hs.marks, hs.page, hs.page', hs.layerType⟩

theorem both_count (f : Stats → Stats) :
    Both g (Expand.count f : Expand σ Unit) (Expand.count f) := by
  intro s s' hs a t a' t' h h'
  cases h
  cases h'
  exact ⟨rfl, hs.source, congrArg f hs.stats, hs.marks, hs.page, hs.page', hs.layerType⟩

theorem both_deeper (g : Generator) (depth : Nat) :
    Both g (deeper g depth : Expand σ Nat) (deeper g depth) := by
  intro s s' hs below t below' t' h h'
  obtain ⟨hbelow, rfl⟩ := deeper_eq_done.1 h
  obtain ⟨hbelow', rfl⟩ := deeper_eq_done.1 h'
  exact ⟨Option.some.inj (hbelow.symm.trans hbelow'), hs⟩

/-- Marks that differ in a value only, are written. -/
theorem both_write {m m' : Mark} (h : m.Similar m') :
    Both g (Expand.write m : Expand σ Unit) (Expand.write m') := by
  intro s s' hs a t a' t' hrun hrun'
  cases hrun
  cases hrun'
  have hpage := (steps_pageOf (σ := σ) g g.config.indentWidth).write
  exact ⟨rfl, hs.source, hs.stats, .cons h hs.marks, hpage s m hs.page, hpage s' m' hs.page',
    hs.layerType⟩

theorem both_indexed (r : Rule) (i : Nat) : Both g (indexed r i : Expand σ _) (indexed r i) := by
  refine Both.map (fun s s' hs p t p' t' h h' => ?_) _
  obtain ⟨hp, rfl⟩ := alternative_eq_done.1 h
  obtain ⟨hp', rfl⟩ := alternative_eq_done.1 h'
  exact ⟨Option.some.inj (hp.symm.trans hp'), hs⟩

theorem both_mapM_indexed (r : Rule) (is : List Nat) :
    Both g (is.mapM (indexed r) : Expand σ _) (is.mapM (indexed r)) := by
  induction is with
  | nil => exact both_pure []
  | cons i is ih =>
    rw [List.mapM_cons]
    exact (both_indexed r i).seq fun p => ih.seq fun ps => both_pure (p :: ps)

/-! ## The type of a layer -/

/-- Marks without values are not only similar. -/
theorem eq_of_similar {ms ms' : List Mark} (h : List.Forall₂ Mark.Similar ms ms')
    (hms : ∀ v, .value v ∉ ms) : ms = ms' := by
  induction h with
  | nil => rfl
  | @cons m m' ms ms' hm _ ih =>
    have htail := ih fun v hv => hms v (List.mem_cons_of_mem _ hv)
    cases hm with
    | same => rw [htail]
    | values => exact absurd (List.mem_cons_self ..) (hms _)

theorem PageOf.page_eq {width : Nat} {s t : State σ} {ms : List Mark} (hs : PageOf width s)
    (ht : PageOf width t) (hms : t.marks = ms ++ s.marks) :
    t.page = ms.reverse.foldl Page.mark s.page := by
  rw [PageOf, hms, List.reverse_append, Page.ofMarks, List.foldl_append, ← Page.ofMarks, ← hs] at ht
  exact ht

/-- What is written without values between states that are alike is the same text. -/
theorem Alike.textFrom?_eq {s s' t t' : State σ} (hs : Alike g s s') (ht : Alike g t t')
    (h : Quietly s t) (h' : Quietly s' t') :
    t.page.textFrom? s.page.size = t'.page.textFrom? s'.page.size := by
  obtain ⟨ms, hms, hvalues⟩ := h
  obtain ⟨ms', hms', -⟩ := h'
  have hsimilar : List.Forall₂ Mark.Similar ms ms' := by
    have hmarks := ht.marks
    rw [hms, hms'] at hmarks
    have hlength := hs.marks.length_eq
    have hall := hmarks.length_eq
    rw [List.length_append, List.length_append] at hall
    have htake := List.forall₂_take_append _ _ _ hmarks
    rwa [List.take_left' (by omega)] at htake
  obtain rfl := eq_of_similar hsimilar hvalues
  have htwins : s.page.Twins s'.page := by
    rw [hs.page, hs.page']
    exact twins_ofMarks _ (List.forall₂_reverse_iff.2 hs.marks)
  rw [hs.page.page_eq ht.page hms, hs.page'.page_eq ht.page' hms']
  exact htwins.textFrom?_eq _

/-- The type of a layer is remembered; if a strategy looks at it, it shows no value. -/
theorem both_trackLayerType {body body' : Expand σ α} (h : Both g body body')
    (hquiet : g.config.Subsets → Relates Quietly body)
    (hquiet' : g.config.Subsets → Relates Quietly body') :
    Both g (trackLayerType body) (trackLayerType body') := by
  intro s s' hs a t a' t' hrun hrun'
  obtain ⟨u, cs, hbody, hcs, rfl⟩ := trackLayerType_eq_done hrun
  obtain ⟨u', cs', hbody', hcs', rfl⟩ := trackLayerType_eq_done hrun'
  obtain ⟨rfl, hu⟩ := h s s' hs a u a' u' hbody hbody'
  refine ⟨rfl, hu.source, hu.stats, hu.marks, hu.page, hu.page', fun hsubsets => ?_⟩
  have htext := hs.textFrom?_eq hu (hquiet hsubsets s _ u hbody)
    (hquiet' hsubsets s' _ u' hbody')
  rw [hcs, hcs', Option.some.injEq] at htext
  rw [htext]

end

/-! ## Expansions with different samplers -/

/-- For every placeholder, inside any parameter, the samplers of a table take the same from the
source as the generator's own. -/
def Demands (g : Generator) (t : SamplingTable) : Prop :=
  ∀ name ∈ g.config.placeholders, ∀ param,
    (g.sampling.sampler name param).demand = (t.sampler name param).demand

section

variable {σ : Type} [RandomSource σ] {g : Generator} {t : SamplingTable}
  {patience maxDepth depth : Nat} {param : Option String}

theorem both_terminal (h : g.Demands t) (name : String) :
    Both g (terminal g patience name param : Expand σ Unit)
      (terminal (g.resample t) patience name param) := by
  rw [terminal, terminal, show (g.resample t).config = g.config from rfl]
  split
  · next hname =>
    intro s s' hs a u a' u' hrun hrun'
    obtain ⟨value, v, hdraw, hrun⟩ := bind_eq_done.1 hrun
    obtain ⟨source, hvalue, rfl⟩ := draw_eq_done.1 hdraw
    obtain ⟨value', v', hdraw', hrun'⟩ := bind_eq_done.1 hrun'
    obtain ⟨source', hvalue', rfl⟩ := draw_eq_done.1 hdraw'
    rw [← hs.source] at hvalue'
    have hsource : source = source' := Sampler.eq_of_demand_eq
      (h name (List.contains_iff_mem.1 hname) param) hvalue hvalue'
    have hsimilar : (Mark.value value).Similar (.value value') :=
      .values (Sampler.closed_of_sample hvalue) (Sampler.closed_of_sample hvalue')
    have halike : Alike g { s with source } { s' with source := source' } :=
      ⟨hsource, hs.stats, hs.marks, hs.page, hs.page', hs.layerType⟩
    exact both_write hsimilar _ _ halike a u a' u' hrun hrun'
  · exact both_write (.same _)

variable {expand expand' : String → Nat → Option String → Expand σ Course} {self : String}

theorem both_trackElements (h : g.Demands t)
    (hexpand : ∀ name depth param, Both g (expand name depth param) (expand' name depth param))
    (es : List Element) (param : Option String) :
    Both g (trackElements g patience expand self depth param es)
      (trackElements (g.resample t) patience expand' self depth param es) := by
  induction es with
  | nil => exact both_pure []
  | cons e es ih =>
    cases e with
    | literal text => exact (both_write (.same _)).seq fun _ => ih
    | terminal name => exact (both_terminal h name).seq fun _ => ih
    | symbol name =>
      rw [trackElements, trackElements]
      split
      · exact (both_deeper g depth).seq fun below => (both_count _).seq fun _ =>
          (hexpand _ _ _).seq fun c => ih.seq fun cs => both_pure (c :: cs)
      · exact (hexpand _ _ _).seq fun c => ih.seq fun cs => both_pure (c :: cs)

theorem both_trackProduction (h : g.Demands t)
    (hexpand : ∀ name depth param, Both g (expand name depth param) (expand' name depth param))
    (p : Production × Nat) :
    Both g (trackProduction g patience expand self depth param p)
      (trackProduction (g.resample t) patience expand' self depth param p) :=
  (both_trackElements h hexpand _ _).seq fun parts => both_pure (Course.chosen self p.2 parts)

theorem both_trackProductions (h : g.Demands t)
    (hexpand : ∀ name depth param, Both g (expand name depth param) (expand' name depth param))
    (ps : List (Production × Nat)) :
    Both g (trackProductions g patience expand self depth param ps)
      (trackProductions (g.resample t) patience expand' self depth param ps) := by
  induction ps with
  | nil => exact both_pure []
  | cons p ps ih =>
    exact (both_trackProduction h hexpand p).seq fun c => ih.seq fun cs => both_pure (c :: cs)

theorem both_trackOutput (h : g.Demands t)
    (hexpand : ∀ name depth param, Both g (expand name depth param) (expand' name depth param))
    (required optional : List String) (probability : Float) (ps : List (Production × Nat)) :
    Both g (trackOutput g patience expand self depth param required optional probability ps)
      (trackOutput (g.resample t) patience expand' self depth param required optional probability
        ps) := by
  induction ps with
  | nil => exact both_pure []
  | cons p ps ih =>
    refine (both_draw _).seq fun written => ?_
    cases written with
    | false => exact ih
    | true =>
      exact (both_trackProduction h hexpand p).seq fun c => ih.seq fun cs => both_pure (c :: cs)

/-- A strategy looks at the type of the layer only where it chooses among parameters. -/
theorem both_trackStrategy (h : g.Demands t)
    (hexpand : ∀ name depth param, Both g (expand name depth param) (expand' name depth param))
    {name : String} {plan : Strategy} (hplan : g.config.strategies[name]? = some plan) :
    Both g (trackStrategy g patience expand depth param plan)
      (trackStrategy (g.resample t) patience expand' depth param plan) := by
  rw [trackStrategy, trackStrategy, show (g.resample t).grammar = g.grammar from rfl]
  cases g.grammar.rule? plan.item with
  | none => exact both_pure []
  | some r =>
    cases plan with
    | allRequired item => exact both_trackProductions h hexpand _
    | output item required optional probability => exact both_trackOutput h hexpand _ _ _ _
    | subset item min max =>
      intro s s' hs a u a' u' hrun hrun'
      have htype : s.layerType = s'.layerType := hs.layerType ⟨name, item, min, max, hplan⟩
      have hchoose : ∀ layerType, Both g
          ((Expand.draw (g.chooseSubset patience layerType r.productions min max) >>= fun chosen =>
            chosen.mapM (indexed r) >>= fun ps =>
              trackProductions g patience expand item depth param ps : Expand σ _))
          (Expand.draw ((g.resample t).chooseSubset patience layerType r.productions min max) >>=
            fun chosen => chosen.mapM (indexed r) >>= fun ps =>
              trackProductions (g.resample t) patience expand' item depth param ps) :=
        fun layerType => (both_draw _).seq fun chosen => (both_mapM_indexed r chosen).seq
          fun ps => both_trackProductions h hexpand ps
      refine hchoose s.layerType s s' hs a u a' u' hrun ?_
      rw [htype]
      exact hrun'

theorem both_trackChoice (r : Rule) :
    Both g (trackChoice patience maxDepth depth r : Expand σ _)
      (trackChoice patience maxDepth depth r) := by
  have hsome : ∀ i, Both g (some <$> indexed r i : Expand σ _) (some <$> indexed r i) :=
    fun i => (both_indexed r i).map some
  rw [trackChoice]
  split
  · refine (both_draw _).seq fun chosen => ?_
    cases chosen with
    | none => exact (both_count _).seq fun _ => both_pure none
    | some i => exact hsome i
  · exact (both_draw _).seq fun i => hsome i

/-- The expansion of a symbol, with one table and with another. -/
theorem both_trackSymbol (h : g.Demands t)
    (hquiet : g.config.Subsets → g.Quiet g.config.layerTypeSymbol) (n : Nat) :
    ∀ name depth param,
      Both g (trackSymbol g patience maxDepth n name depth param : Expand σ Course)
        (trackSymbol (g.resample t) patience maxDepth n name depth param) := by
  induction n with
  | zero =>
    intro name depth param s s' _ a u a' u' hrun
    cases hrun
  | succ n ih =>
    intro name depth param
    rw [trackSymbol, trackSymbol, show (g.resample t).grammar = g.grammar from rfl,
      show (g.resample t).config = g.config from rfl]
    cases hrule : g.grammar.rule? name with
    | none => exact (both_write (.same _)).seq fun _ => both_pure _
    | some r =>
      cases hplan : g.config.strategies[name]? with
      | some plan => exact (both_trackStrategy h ih hplan).map _
      | none =>
        refine (both_trackChoice r).bind fun s choice u hchoice => ?_
        cases choice with
        | none => exact both_pure _
        | some p =>
          have hmem : p.1 ∈ r.productions := List.mem_of_getElem? (getElem?_of_trackChoice hchoice)
          have hbody : Both g
              (trackProduction g patience (trackSymbol g patience maxDepth n) name depth param p)
              (trackProduction (g.resample t) patience
                (trackSymbol (g.resample t) patience maxDepth n) name depth param p) :=
            both_trackProduction h ih p
          rw [trackChosen, trackChosen, show (g.resample t).config = g.config from rfl]
          split
          · exact both_pure _
          · split
            · next hname =>
              subst hname
              exact both_trackLayerType hbody
                (fun hsubsets => quietly_trackProduction (hquiet hsubsets) hplan hrule hmem)
                fun hsubsets => quietly_trackProduction ((hquiet hsubsets).resample t) hplan hrule
                  hmem
            · exact hbody

/-- Two expansions, with samplers that take the same from the source, take the same course: they
count the same, leave the same of the source, and write the same marks but for the values. -/
theorem same_course (h : g.Demands t)
    (hquiet : g.config.Subsets → g.Quiet g.config.layerTypeSymbol) (limits : Limits)
    (name : String) (depth maxDepth : UInt64) (source rest rest' : σ) (e e' : Expansion)
    (hrun : g.expand limits name depth maxDepth source = .ok (.done (e, rest)))
    (hrun' : (g.resample t).expand limits name depth maxDepth source = .ok (.done (e', rest'))) :
    e.stats = e'.stats ∧ List.Forall₂ Mark.Similar e.marks e'.marks ∧ rest = rest' ∧
      ∃ c, g.track limits name depth maxDepth source = .ok (.done (c, e, rest)) ∧
        (g.resample t).track limits name depth maxDepth source = .ok (.done (c, e', rest')) := by
  obtain ⟨c, htrack⟩ := expand_eq_done_iff.1 hrun
  obtain ⟨c', htrack'⟩ := expand_eq_done_iff.1 hrun'
  obtain ⟨-, u, hsymbol, hfinish⟩ := track_eq_done_iff.1 htrack
  obtain ⟨-, u', hsymbol', hfinish'⟩ := track_eq_done_iff.1 htrack'
  have hstart : Alike g (g.start source) ((g.resample t).start source) :=
    ⟨rfl, rfl, .nil, rfl, rfl, fun _ => rfl⟩
  obtain ⟨rfl, hu⟩ := both_trackSymbol h hquiet _ name depth.toNat none _ _ hstart c u c' u' hsymbol
    hsymbol'
  cases hfinish
  cases hfinish'
  exact ⟨hu.stats, List.forall₂_reverse_iff.2 hu.marks, hu.source, c, htrack, htrack'⟩

end

/-- A generator of a layer with a parameter, chosen by the type of the layer. -/
def sizedLayer : Generator :=
  { ofGrammar (Grammar.ofAlternatives
      [("layer", ["<layer_type>", "\"\x7b\"", "<params>", "\"\x7d\""]),
       ("layer_type", ["\"patch\""]),
        ("layer_type", ["\"window\""]), ("params", ["<param>"]),
        ("param", ["\"size\"", "\"=\"", "INT"])]) with
    config := { Config.standard with
      strategies := Std.ExtTreeMap.ofList [("params", Strategy.subset "param" 1 2)] } }

/-- As many integers as in the standard table, but other ones. -/
def otherSizes : SamplingTable := SamplingTable.standard.insert "INT" (.choice [3, 5, 7, 9])

theorem quiet_sizedLayer : sizedLayer.Quiet "layer_type" := by
  have htype : sizedLayer.grammar.rule? "layer_type" = some (Rule.ofProductions
      [⟨[.literal "patch"], false⟩, ⟨[.literal "window"], false⟩]) := by
    rfl
  have hliterals : ∀ {r : Rule} {p : Production} {e : Element},
      sizedLayer.grammar.rule? "layer_type" = some r → p ∈ r.productions → e ∈ p.elements →
        e = .literal "patch" ∨ e = .literal "window" := by
    intro r p e hrule hp he
    rw [htype] at hrule
    cases hrule
    rcases List.mem_pair.1 hp with rfl | rfl
    · exact .inl (List.mem_singleton.1 he)
    · exact .inr (List.mem_singleton.1 he)
  have hplan : sizedLayer.config.strategies["layer_type"]? = none := rfl
  have hends : ∀ y, ¬ LeadsTo sizedLayer "layer_type" y := by
    intro y h
    cases h with
    | alternative _ hrule hp hy =>
      have hliteral := hliterals hrule hp hy
      simp at hliteral
    | item hplan' =>
      rw [hplan] at hplan'
      cases hplan'
  intro x p terminal hx hexpands hterminal
  obtain rfl : "layer_type" = x := by
    cases hx.cases_head with
    | inl h => exact h
    | inr h => exact absurd h.choose_spec.1 (hends _)
  cases hexpands with
  | alternative _ hrule hp =>
    have hliteral := hliterals hrule hp hterminal
    simp at hliteral
  | item hplan' =>
    rw [hplan] at hplan'
    cases hplan'

theorem demands_otherSizes : sizedLayer.Demands otherSizes := by
  have hsizes : SamplingTable.standard.get? "INT" = some (.choice [1, 2, 4, 8]) := by
    decide +kernel
  have hdemand : (Sampler.choice [3, 5, 7, 9]).demand = (Sampler.choice [1, 2, 4, 8]).demand := rfl
  exact fun name _ param => (SamplingTable.demand_sampler_insert hsizes hdemand name param).symm

/-- Words that choose the first type, its parameter, and the third size. -/
def sizeWords : WordSource := WordSource.ofWords [0, 0, 0, 0, 0x8000000000000000]

theorem expand_sizedLayer : ∃ e rest,
    sizedLayer.expand ⟨8, 8⟩ "layer" 0 2 sizeWords = .ok (.done (e, rest)) ∧
      .value "4" ∈ e.marks := by
  have hrun : (done? (sizedLayer.expand ⟨8, 8⟩ "layer" 0 2 sizeWords)).any
      (fun r => r.1.marks.contains (.value "4")) = true := by
    decide +kernel
  obtain ⟨⟨e, rest⟩, h, hvalue⟩ := exists_done_of_any hrun
  exact ⟨e, rest, h, List.contains_iff_mem.1 hvalue⟩

theorem expand_otherSizes : ∃ e rest,
    (sizedLayer.resample otherSizes).expand ⟨8, 8⟩ "layer" 0 2 sizeWords =
      .ok (.done (e, rest)) ∧ .value "7" ∈ e.marks := by
  have hrun : (done? ((sizedLayer.resample otherSizes).expand ⟨8, 8⟩ "layer" 0 2 sizeWords)).any
      (fun r => r.1.marks.contains (.value "7")) = true := by
    decide +kernel
  obtain ⟨⟨e, rest⟩, h, hvalue⟩ := exists_done_of_any hrun
  exact ⟨e, rest, h, List.contains_iff_mem.1 hvalue⟩

theorem same_course_sizedLayer : ∃ e rest e' rest',
    sizedLayer.expand ⟨8, 8⟩ "layer" 0 2 sizeWords = .ok (.done (e, rest)) ∧
      .value "4" ∈ e.marks ∧
      (sizedLayer.resample otherSizes).expand ⟨8, 8⟩ "layer" 0 2 sizeWords =
        .ok (.done (e', rest')) ∧ .value "7" ∈ e'.marks ∧
      e.stats = e'.stats ∧ List.Forall₂ Mark.Similar e.marks e'.marks := by
  obtain ⟨e, rest, h, hvalue⟩ := expand_sizedLayer
  obtain ⟨e', rest', h', hvalue'⟩ := expand_otherSizes
  obtain ⟨hstats, hmarks, -⟩ := same_course demands_otherSizes (fun _ => quiet_sizedLayer) _ _ _ _
    _ rest rest' e e' h h'
  exact ⟨e, rest, e', rest', h, hvalue, h', hvalue', hstats, hmarks⟩

/-- A generator of lists of values. -/
def valueLists : Generator :=
  { ofGrammar (Grammar.ofAlternatives
      [("list", ["INT"]), ("list", ["INT", "\",\"", "<list>"])]) with
    config := { Config.standard with strategies := ∅ } }

/-- The standard table, but with a range that holds one integer only. -/
def onlyFives : SamplingTable := SamplingTable.standard.insert "INT" (.intRange 5 5)

/-- Words that choose twice to go on, with one word for a value between. -/
def listWords : WordSource := WordSource.ofWords [0x8000000000000000, 0, 0x8000000000000000]

/-- Samplers that take less from the source leave more of it for the choices. -/
theorem stats_ne_valueLists : ∃ e rest e' rest',
    valueLists.expand ⟨8, 8⟩ "list" 0 2 listWords = .ok (.done (e, rest)) ∧
      (valueLists.resample onlyFives).expand ⟨8, 8⟩ "list" 0 2 listWords =
        .ok (.done (e', rest')) ∧ e.stats ≠ e'.stats := by
  have hrun : (done? (valueLists.expand ⟨8, 8⟩ "list" 0 2 listWords)).any
      (fun r => r.1.stats.selfRecursions == 2) = true := by
    decide +kernel
  have hrun' : (done? ((valueLists.resample onlyFives).expand ⟨8, 8⟩ "list" 0 2 listWords)).any
      (fun r => r.1.stats.selfRecursions == 1) = true := by
    decide +kernel
  obtain ⟨⟨e, rest⟩, h, htwo⟩ := exists_done_of_any hrun
  obtain ⟨⟨e', rest'⟩, h', hone⟩ := exists_done_of_any hrun'
  refine ⟨e, rest, e', rest', h, h', fun heq => ?_⟩
  rw [← heq, beq_iff_eq.1 htwo] at hone
  cases hone

end NeuralArch.Generator
