import NeuralArch.Proofs.Generator.Runs

/-!
# The course of an expansion

What an expansion writes does not say which alternatives it took, since two of
them may write the same.  The course says it: a tree with a node for each symbol
that was expanded, in the order of the text.  It is recorded by a run that does
everything the expansion does, and gives the course besides; without its course
it is the expansion itself.

* `Course` — which alternatives were taken, symbol by symbol.
* `trackSymbol` — the expansion of a symbol, with its course.
* `forget_trackSymbol` — without the course it is the expansion of the symbol.
* `track`, `expand_eq_done_iff` — every expansion that is done has a course.
-/

namespace NeuralArch.Generator

open Expand Layout

/-! ## Courses -/

/-- What became of a symbol. -/
inductive Course
  /-- It has no rule. -/
  | undefined (symbol : String)
  /-- It was cut off at the bound. -/
  | truncated (symbol : String)
  /-- An alternative of it was written, and in it each symbol in turn. -/
  | chosen (symbol : String) (index : Nat) (parts : List Course)
  /-- A strategy wrote alternatives of its item. -/
  | listed (symbol : String) (items : List Course)
deriving Repr

variable {σ α β : Type}

/-! ## Values that are left out -/

/-- A computation without its value. -/
def forget (x : Expand σ α) : Expand σ Unit := (fun _ => ()) <$> x

theorem forget_bind (x : Expand σ α) (f : α → Expand σ β) :
    forget (x >>= f) = x >>= fun a => forget (f a) := map_bind ..

theorem forget_pure (a : α) : forget (pure a : Expand σ α) = pure () := map_pure ..

theorem forget_map (f : α → β) (x : Expand σ α) : forget (f <$> x) = forget x := by
  rw [forget, forget, Functor.map_map]

/-- What does not look at a value goes on without it. -/
theorem bind_eq_forget (x : Expand σ α) (y : Expand σ β) :
    (x >>= fun _ => y) = forget x >>= fun _ => y := by
  rw [forget, bind_map_left]

/-- Two parts whose values are put together. -/
theorem forget_both {γ : Type} (x : Expand σ α) (y : Expand σ β) (f : α → β → γ) :
    forget (x >>= fun a => y >>= fun b => pure (f a b)) = forget x >>= fun _ => forget y := by
  simp only [forget_bind, forget_pure]
  rw [← bind_eq_forget]
  simp only [forget, map_eq_pure_bind]

theorem forget_eq_done {x : Expand σ α} {s t : State σ} :
    forget x s = .done ((), t) ↔ ∃ a, x s = .done (a, t) := by
  rw [forget, map_eq_pure_bind, bind_eq_done]
  constructor
  · rintro ⟨a, u, hx, hpure⟩
    obtain ⟨-, rfl⟩ := pure_eq_done.1 hpure
    exact ⟨a, hx⟩
  · rintro ⟨a, hx⟩
    exact ⟨a, t, hx, rfl⟩

/-- The alternative of an index, with the index. -/
def indexed (r : Rule) (i : Nat) : Expand σ (Production × Nat) :=
  (fun p => (p, i)) <$> alternative r i

theorem indexed_eq_done {r : Rule} {i : Nat} {p : Production × Nat} {s t : State σ} :
    indexed r i s = .done (p, t) ↔ r.productions[i]? = some p.1 ∧ i = p.2 ∧ s = t := by
  rw [indexed, map_eq_pure_bind, bind_eq_done]
  constructor
  · rintro ⟨q, u, hq, hpure⟩
    obtain ⟨rfl, rfl⟩ := pure_eq_done.1 hpure
    obtain ⟨hi, rfl⟩ := alternative_eq_done.1 hq
    exact ⟨hi, rfl, rfl⟩
  · rintro ⟨hi, rfl, rfl⟩
    exact ⟨p.1, s, alternative_eq_done.2 ⟨hi, rfl⟩, rfl⟩

theorem map_fst_mapM_indexed (r : Rule) (is : List Nat) :
    List.map Prod.fst <$> (is.mapM (indexed r) : Expand σ _) = is.mapM (alternative r) := by
  induction is with
  | nil => rfl
  | cons i is ih =>
    rw [List.mapM_cons, List.mapM_cons, ← ih, map_bind, indexed, bind_map_left]
    refine bind_congr fun p => ?_
    rw [map_bind, bind_map_left]
    rfl

/-- Something whose text becomes the type of the layer being written. -/
def trackLayerType (body : Expand σ α) : Expand σ α := do
  let start := (← get).page.size
  let a ← body
  match (← get).page.textFrom? start with
  | some cs =>
    modify fun s => { s with layerType := some (String.ofList (Text.trim cs)) }
    return a
  | none => fail .sliceOutside

theorem trackLayerType_apply (body : Expand σ α) (s : State σ) :
    trackLayerType body s = (body s >>= fun r =>
      match r.2.page.textFrom? s.page.size with
      | some cs => .done (r.1, { r.2 with layerType := some (String.ofList (Text.trim cs)) })
      | none => .fault .sliceOutside) := by
  rw [trackLayerType, Draw.get_bind, Draw.bind_apply]
  refine bind_congr fun r => ?_
  rw [Draw.get_bind]
  cases r.2.page.textFrom? s.page.size with
  | none => rfl
  | some cs => rfl

theorem trackLayerType_eq_done {body : Expand σ α} {s t : State σ} {a : α}
    (h : trackLayerType body s = .done (a, t)) :
    ∃ u cs, body s = .done (a, u) ∧ u.page.textFrom? s.page.size = some cs ∧
      t = { u with layerType := some (String.ofList (Text.trim cs)) } := by
  rw [trackLayerType_apply, Outcome.bind_eq_done] at h
  obtain ⟨⟨b, u⟩, hbody, h⟩ := h
  dsimp only at h
  cases hcs : u.page.textFrom? s.page.size with
  | none =>
    rw [hcs] at h
    cases h
  | some cs =>
    rw [hcs] at h
    cases h
    exact ⟨u, cs, hbody, hcs, rfl⟩

theorem forget_trackLayerType (body : Expand σ α) :
    forget (trackLayerType body) = asLayerType (forget body) := by
  rw [trackLayerType, asLayerType, forget_bind]
  refine bind_congr fun s => ?_
  rw [forget_bind, forget, bind_map_left]
  refine bind_congr fun a => ?_
  rw [forget_bind]
  refine bind_congr fun t => ?_
  cases t.page.textFrom? s.page.size with
  | none => rfl
  | some cs => rfl

section

variable [RandomSource σ]

/-! ## Expansions with their courses -/

/-- Elements of an alternative, with the courses of their symbols. -/
def trackElements (g : Generator) (patience : Nat)
    (expand : String → Nat → Option String → Expand σ Course) (self : String) (depth : Nat)
    (param : Option String) : List Element → Expand σ (List Course)
  | [] => return []
  | .literal text :: es => do
    write (Mark.ofLiteral text)
    trackElements g patience expand self depth param es
  | .terminal name :: es => do
    terminal g patience name param
    trackElements g patience expand self depth param es
  | .symbol name :: es => do
    let c ← if name = self then do
        let below ← deeper g depth
        count (·.recur below)
        expand name below param
      else expand name depth param
    let cs ← trackElements g patience expand self depth param es
    return c :: cs

/-- An alternative with its index. -/
def trackProduction (g : Generator) (patience : Nat)
    (expand : String → Nat → Option String → Expand σ Course) (self : String) (depth : Nat)
    (param : Option String) (p : Production × Nat) : Expand σ Course := do
  let parts ← trackElements g patience expand self depth (p.1.paramName?.or param) p.1.elements
  return .chosen self p.2 parts

/-- Several alternatives with their indices. -/
def trackProductions (g : Generator) (patience : Nat)
    (expand : String → Nat → Option String → Expand σ Course) (self : String) (depth : Nat)
    (param : Option String) : List (Production × Nat) → Expand σ (List Course)
  | [] => return []
  | p :: ps => do
    let c ← trackProduction g patience expand self depth param p
    let cs ← trackProductions g patience expand self depth param ps
    return c :: cs

/-- Those of several alternatives that are required or come by chance. -/
def trackOutput (g : Generator) (patience : Nat)
    (expand : String → Nat → Option String → Expand σ Course) (item : String) (depth : Nat)
    (param : Option String) (required optional : List String) (probability : Float) :
    List (Production × Nat) → Expand σ (List Course)
  | [] => return []
  | p :: ps => do
    if ← draw (isWritten required optional probability p.1) then
      let c ← trackProduction g patience expand item depth param p
      let cs ← trackOutput g patience expand item depth param required optional probability ps
      return c :: cs
    else trackOutput g patience expand item depth param required optional probability ps

/-- A strategy, with the courses of the alternatives that it writes. -/
def trackStrategy (g : Generator) (patience : Nat)
    (expand : String → Nat → Option String → Expand σ Course) (depth : Nat)
    (param : Option String) (s : Strategy) : Expand σ (List Course) :=
  match g.grammar.rule? s.item with
  | none => return []
  | some r =>
    match s with
    | .allRequired item =>
      trackProductions g patience expand item depth param r.productions.zipIdx
    | .output item required optional probability =>
      trackOutput g patience expand item depth param required optional (clamp probability)
        r.productions.zipIdx
    | .subset item min max => do
      let layerType := (← get).layerType
      let chosen ← draw (g.chooseSubset patience layerType r.productions min max)
      let ps ← chosen.mapM (indexed r)
      trackProductions g patience expand item depth param ps

/-- The alternative that is drawn, with its index. -/
def trackChoice (patience maxDepth depth : Nat) (r : Rule) :
    Expand σ (Option (Production × Nat)) :=
  if r.isRecursive && maxDepth ≤ depth then do
    match ← draw (Draw.choose patience r.nonRecursive) with
    | some i => some <$> indexed r i
    | none =>
      count Stats.truncate
      return none
  else do
    let i ← draw (Draw.below patience .word r.productions.length)
    some <$> indexed r i

/-- Writes the alternative that was drawn, with its course. -/
def trackChosen (g : Generator) (patience : Nat)
    (expand : String → Nat → Option String → Expand σ Course) (name : String) (depth : Nat)
    (param : Option String) : Option (Production × Nat) → Expand σ Course
  | none => return .truncated name
  | some p =>
    let body := trackProduction g patience expand name depth param p
    if p.1.isEmpty then return .chosen name p.2 []
    else if name = g.config.layerTypeSymbol then trackLayerType body
    else body

/-- The expansion of a symbol, with its course. -/
def trackSymbol (g : Generator) (patience maxDepth : Nat) :
    Nat → String → Nat → Option String → Expand σ Course
  | 0, _, _, _ => fun _ => .unfinished
  | n + 1, name, depth, param =>
    match g.grammar.rule? name, g.config.strategies[name]? with
    | none, _ => do
      write (.word ("<" ++ name ++ ">"))
      return .undefined name
    | some _, some s =>
      Course.listed name <$> trackStrategy g patience (trackSymbol g patience maxDepth n) depth
        param s
    | some r, none =>
      trackChoice patience maxDepth depth r >>=
        trackChosen g patience (trackSymbol g patience maxDepth n) name depth param

/-- The expansion of a symbol that has a rule, with its course. -/
def track (g : Generator) (limits : Limits) (name : String) (depth maxDepth : UInt64)
    (source : σ) : Except GrammarError (Outcome (Course × Expansion × σ)) := do
  let _ ← g.grammar.rule name
  return do
    let (c, s) ← trackSymbol g limits.patience maxDepth.toNat limits.descent name depth.toNat none
      (g.start source)
    return (c, finish s)

/-! ## Without the course -/

variable {g : Generator} {patience maxDepth depth n : Nat} {param : Option String}

section

variable {expand : String → Nat → Option String → Expand σ Course} {self : String}

theorem forget_trackElements (es : List Element) :
    forget (trackElements g patience expand self depth param es) =
      elements g patience (fun name depth param => forget (expand name depth param)) self depth
        param es := by
  induction es with
  | nil => exact forget_pure []
  | cons e es ih =>
    cases e with
    | literal text => rw [trackElements, elements, forget_bind, ih]
    | terminal name => rw [trackElements, elements, forget_bind, ih]
    | symbol name =>
      rw [trackElements, elements]
      split
      · rw [forget_bind]
        refine bind_congr fun below => ?_
        rw [forget_bind]
        refine bind_congr fun _ => ?_
        rw [forget_both, ih]
      · rw [forget_both, ih]

theorem forget_trackProduction (p : Production × Nat) :
    forget (trackProduction g patience expand self depth param p) =
      production g patience (fun name depth param => forget (expand name depth param)) self depth
        param p.1 := by
  rw [production, ← forget_trackElements, trackProduction, ← map_eq_pure_bind, forget_map]

theorem forget_trackProductions (ps : List (Production × Nat)) :
    forget (trackProductions g patience expand self depth param ps) =
      productions g patience (fun name depth param => forget (expand name depth param)) self depth
        param (ps.map Prod.fst) := by
  induction ps with
  | nil => exact forget_pure []
  | cons p ps ih =>
    rw [trackProductions, List.map_cons, productions, forget_both, ih, forget_trackProduction]

theorem forget_trackOutput (required optional : List String) (probability : Float)
    (ps : List (Production × Nat)) :
    forget (trackOutput g patience expand self depth param required optional probability ps) =
      outputProductions g patience (fun name depth param => forget (expand name depth param)) self
        depth param required optional probability (ps.map Prod.fst) := by
  induction ps with
  | nil => exact forget_pure []
  | cons p ps ih =>
    rw [trackOutput, List.map_cons, outputProductions, forget_bind]
    refine bind_congr fun written => ?_
    cases written with
    | false => exact ih
    | true =>
      rw [if_pos rfl, if_pos rfl, forget_both, ih, forget_trackProduction]

theorem forget_trackStrategy (plan : Strategy) :
    forget (trackStrategy g patience expand depth param plan) =
      strategy g patience (fun name depth param => forget (expand name depth param)) depth param
        plan := by
  rw [trackStrategy, strategy]
  cases g.grammar.rule? plan.item with
  | none => exact forget_pure []
  | some r =>
    cases plan with
    | allRequired item => simp only [forget_trackProductions, List.zipIdx_map_fst]
    | output item required optional probability =>
      simp only [forget_trackOutput, List.zipIdx_map_fst]
    | subset item min max =>
      dsimp only
      rw [forget_bind]
      refine bind_congr fun s => ?_
      rw [forget_bind]
      refine bind_congr fun chosen => ?_
      rw [forget_bind, ← map_fst_mapM_indexed, bind_map_left]
      exact bind_congr fun ps => forget_trackProductions ps

end

/-- What is drawn is an alternative of the rule. -/
theorem getElem?_of_trackChoice {r : Rule} {p : Production × Nat} {s t : State σ}
    (h : trackChoice patience maxDepth depth r s = .done (some p, t)) :
    r.productions[p.2]? = some p.1 := by
  have hsome : ∀ {i : Nat} {u : State σ},
      (some <$> indexed r i : Expand σ _) u = .done (some p, t) →
      r.productions[p.2]? = some p.1 := by
    intro i u h
    rw [map_eq_pure_bind, bind_eq_done] at h
    obtain ⟨q, v, hq, hpure⟩ := h
    obtain ⟨heq, -⟩ := pure_eq_done.1 hpure
    obtain ⟨hi, rfl, -⟩ := indexed_eq_done.1 hq
    rwa [Option.some.inj heq] at hi
  rw [trackChoice] at h
  split at h
  · obtain ⟨chosen, u, -, h⟩ := bind_eq_done.1 h
    cases chosen with
    | none => cases h
    | some i => exact hsome h
  · obtain ⟨i, u, -, h⟩ := bind_eq_done.1 h
    exact hsome h

/-- Without its index it is the alternative that is drawn. -/
theorem map_fst_trackChoice (r : Rule) :
    Option.map Prod.fst <$> (trackChoice patience maxDepth depth r :
      Expand σ (Option (Production × Nat))) = chooseAlternative patience maxDepth depth r := by
  have hsome : ∀ i, Option.map Prod.fst <$> some <$> (indexed r i : Expand σ _) =
      some <$> alternative r i := by
    intro i
    rw [indexed, Functor.map_map, Functor.map_map]
    rfl
  rw [trackChoice, chooseAlternative]
  split
  · rw [map_bind]
    refine bind_congr fun chosen => ?_
    cases chosen with
    | none => rfl
    | some i => exact hsome i
  · rw [map_bind]
    exact bind_congr fun i => hsome i

theorem trackSymbol_of_rule {name : String} {r : Rule} (hrule : g.grammar.rule? name = some r)
    (hplan : g.config.strategies[name]? = none) (n depth : Nat) (param : Option String) :
    (trackSymbol g patience maxDepth (n + 1) name depth param : Expand σ Course) =
      trackChoice patience maxDepth depth r >>=
        trackChosen g patience (trackSymbol g patience maxDepth n) name depth param := by
  simp only [trackSymbol, hrule, hplan]

/-- Without its course it is the expansion of the symbol. -/
theorem forget_trackSymbol (n : Nat) : ∀ name depth param,
    forget (trackSymbol g patience maxDepth n name depth param : Expand σ Course) =
      symbol g patience maxDepth n name depth param := by
  induction n with
  | zero => exact fun _ _ _ => rfl
  | succ n ih =>
    intro name depth param
    have hcalls : (fun name depth param => forget (trackSymbol g patience maxDepth n name depth
        param : Expand σ Course)) = symbol g patience maxDepth n := by
      funext name depth param
      exact ih name depth param
    rw [trackSymbol, symbol]
    cases hrule : g.grammar.rule? name with
    | none => rfl
    | some r =>
      cases hplan : g.config.strategies[name]? with
      | some plan => exact (forget_map _ _).trans (by rw [forget_trackStrategy, hcalls])
      | none =>
        dsimp only
        rw [← map_fst_trackChoice, bind_map_left, forget_bind]
        refine bind_congr fun choice => ?_
        cases choice with
        | none => exact forget_pure _
        | some p =>
          dsimp only [Option.map]
          rw [trackChosen]
          split
          · exact forget_pure _
          · split
            · rw [forget_trackLayerType, forget_trackProduction, hcalls]
            · rw [forget_trackProduction, hcalls]

theorem forget_trackSymbol_eq (n : Nat) :
    (fun name depth param => forget (trackSymbol g patience maxDepth n name depth param :
      Expand σ Course)) = symbol g patience maxDepth n := by
  funext name depth param
  exact forget_trackSymbol n name depth param

/-! ## Expansions -/

theorem track_eq_ok (g : Generator) (limits : Limits) {name : String} {r : Rule}
    (hr : g.grammar.rule name = .ok r) (depth maxDepth : UInt64) (source : σ) :
    g.track limits name depth maxDepth source = .ok (do
      let (c, s) ← trackSymbol g limits.patience maxDepth.toNat limits.descent name depth.toNat none
        (g.start source)
      return (c, finish s)) := by
  rw [track, hr]
  rfl

/-- An expansion is done with its course when that of its symbol is. -/
theorem track_eq_done_iff {limits : Limits} {name : String} {depth maxDepth : UInt64}
    {source rest : σ} {c : Course} {e : Expansion} :
    g.track limits name depth maxDepth source = .ok (.done (c, e, rest)) ↔
      (∃ r, g.grammar.rule name = .ok r) ∧ ∃ t, trackSymbol g limits.patience maxDepth.toNat
        limits.descent name depth.toNat none (g.start source) = .done (c, t) ∧
          finish t = (e, rest) := by
  cases hr : g.grammar.rule name with
  | error err =>
    rw [track, hr]
    constructor
    · intro h
      cases h
    · rintro ⟨⟨r, hr⟩, -⟩
      cases hr
  | ok r =>
    rw [track_eq_ok g limits hr, Except.ok.injEq, Outcome.bind_eq_done]
    constructor
    · rintro ⟨⟨c, t⟩, hrun, hfinish⟩
      cases hfinish
      exact ⟨⟨r, rfl⟩, t, hrun, rfl⟩
    · rintro ⟨-, t, hrun, hfinish⟩
      exact ⟨(c, t), hrun, congrArg (fun f => Outcome.done (c, f)) hfinish⟩

/-- Every expansion that is done has a course. -/
theorem expand_eq_done_iff {limits : Limits} {name : String} {depth maxDepth : UInt64}
    {source rest : σ} {e : Expansion} :
    g.expand limits name depth maxDepth source = .ok (.done (e, rest)) ↔
      ∃ c, g.track limits name depth maxDepth source = .ok (.done (c, e, rest)) := by
  simp only [track_eq_done_iff]
  cases hr : g.grammar.rule name with
  | error err =>
    rw [expand, hr]
    constructor
    · intro h
      cases h
    · rintro ⟨c, ⟨r, hr⟩, -⟩
      cases hr
  | ok r =>
    rw [expand_eq_ok g limits hr, Except.ok.injEq, Outcome.bind_eq_done]
    constructor
    · rintro ⟨⟨_, t⟩, hrun, hfinish⟩
      rw [← forget_trackSymbol, forget_eq_done] at hrun
      obtain ⟨c, hrun⟩ := hrun
      exact ⟨c, ⟨r, rfl⟩, t, hrun, Outcome.done.inj hfinish⟩
    · rintro ⟨c, -, t, hrun, hfinish⟩
      have hsymbol := forget_eq_done.2 ⟨c, hrun⟩
      rw [forget_trackSymbol] at hsymbol
      exact ⟨((), t), hsymbol, congrArg Outcome.done hfinish⟩

end

end NeuralArch.Generator
