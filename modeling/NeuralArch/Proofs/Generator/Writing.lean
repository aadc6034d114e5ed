import NeuralArch.Generator.Expansion
import NeuralArch.Proofs.Grammar.Standard
import NeuralArch.Proofs.Layout.Page
import NeuralArch.Proofs.Random.Draw

/-!
# What expansions write

An expansion adds words to the page, and may set the type of the layer being
written.  What it adds does not depend on what is on the page already, so it is
enough to follow the words and the layer type, step by step.

* `Writes` — the words that an expansion adds from a layer type, and the layer
  type behind it.
* `Writes.bind`, `Writes.draw` — steps in sequence, and what follows a draw.
* `writes_elements_cons`, `writes_productions_cons` — elements and productions.
* `writes_chooseAlternative` — which production is chosen at a depth.
* `writes_asLayerType` — a word that becomes the type of the layer.
-/

namespace NeuralArch.Generator

open Layout

variable {σ α β : Type} {L : Option String}

/-- From a layer type an expansion gives a value and adds words, each as if it were a literal,
with a layer type behind them, or nothing is drawn. -/
def Writes (x : Expand σ α) (L : Option String)
    (Q : α → List String → Option String → Prop) : Prop :=
  ∀ s : State σ, s.layerType = L → (x s).Yields fun r =>
    ∃ ws : List String, r.2.page = (ws.map Mark.ofLiteral).foldl Page.mark s.page ∧
      Q r.1 ws r.2.layerType

/-- An expansion that adds words and leaves the layer type as it is. -/
def WritesText (x : Expand σ Unit) (L : Option String) (W : List String → Prop) : Prop :=
  Writes x L fun _ ws L' => L' = L ∧ W ws

/-! ## Steps -/

variable {P Q : α → List String → Option String → Prop}
  {R : β → List String → Option String → Prop}

theorem Writes.mono {x : Expand σ α} (h : Writes x L P)
    (hPQ : ∀ a ws L', P a ws L' → Q a ws L') : Writes x L Q := by
  intro s hs
  refine (h s hs).mono fun r hr => ?_
  obtain ⟨ws, hpage, hP⟩ := hr
  exact ⟨ws, hpage, hPQ _ _ _ hP⟩

theorem WritesText.mono {x : Expand σ Unit} {V W : List String → Prop} (h : WritesText x L V)
    (hVW : ∀ ws, V ws → W ws) : WritesText x L W :=
  Writes.mono h fun _ ws _ hV => ⟨hV.1, hVW ws hV.2⟩

theorem writes_pure {a : α} (h : Q a [] L) : Writes (pure a : Expand σ α) L Q := by
  intro s hs
  exact ⟨[], rfl, by rwa [hs]⟩

/-- The words of two steps stand side by side. -/
theorem Writes.bind {x : Expand σ α} {f : α → Expand σ β} (h : Writes x L P)
    (hf : ∀ a ws L', P a ws L' → Writes (f a) L' fun b ws' => R b (ws ++ ws')) :
    Writes (x >>= f) L R := by
  intro s hs
  refine (h s hs).bind fun r hr => ?_
  obtain ⟨ws, hpage, hP⟩ := hr
  refine (hf r.1 _ _ hP r.2 rfl).mono fun r' hr' => ?_
  obtain ⟨ws', hpage', hR⟩ := hr'
  refine ⟨ws ++ ws', ?_, hR⟩
  rw [hpage', hpage, List.map_append, List.foldl_append]

/-- Two texts one behind the other. -/
theorem WritesText.seq {x y : Expand σ Unit} {V W U : List String → Prop}
    (hx : WritesText x L V) (hy : WritesText y L W)
    (hU : ∀ ws ws', V ws → W ws' → U (ws ++ ws')) :
    WritesText (x >>= fun _ => y) L U := by
  refine Writes.bind hx fun _ ws L' hV => ?_
  obtain ⟨rfl, hV⟩ := hV
  exact WritesText.mono hy fun ws' hW => hU ws ws' hV hW

/-- A draw writes nothing. -/
theorem writes_draw {d : Draw σ α} {D : α → Prop} (h : d.Gives D) :
    Writes (Expand.draw d) L fun a ws L' => D a ∧ ws = [] ∧ L' = L := by
  intro s hs
  refine (h s.source).bind fun r hr => ?_
  exact ⟨[], rfl, hr, rfl, hs⟩

theorem Writes.draw {d : Draw σ α} {D : α → Prop} (h : d.Gives D) {f : α → Expand σ β}
    (hf : ∀ a, D a → Writes (f a) L R) : Writes (Expand.draw d >>= f) L R := by
  refine (writes_draw h).bind fun a ws L' ha => ?_
  obtain ⟨hD, rfl, rfl⟩ := ha
  exact hf a hD

/-- What follows may look at the state. -/
theorem Writes.get {f : State σ → Expand σ β} (hf : ∀ s, s.layerType = L → Writes (f s) L R) :
    Writes (MonadState.get >>= f) L R :=
  fun s hs => hf s hs s hs

theorem writes_count (f : Stats → Stats) :
    WritesText (Expand.count f : Expand σ Unit) L fun ws => ws = [] :=
  fun _ hs => ⟨[], rfl, hs, rfl⟩

theorem writes_write {m : Mark} {text : String}
    (h : ∀ p : Page, p.mark m = p.mark (.ofLiteral text)) :
    WritesText (Expand.write m : Expand σ Unit) L fun ws => ws = [text] :=
  fun s hs => ⟨[text], h s.page, hs, rfl⟩

theorem deeper_of_lt (g : Generator) {depth : Nat} (h : depth + 1 < Number.wordCount) :
    deeper g depth = (pure (depth + 1) : Expand σ Nat) := by
  rw [deeper, next?_of_lt g h]

/-! ## Elements and productions -/

section

variable [RandomSource σ] {g : Generator} {patience depth : Nat}
  {expand : String → Nat → Option String → Expand σ Unit} {self : String}
  {param : Option String} {T : List String → Option String → Prop}

/-- One element after the other. -/
theorem elements_cons (e : Element) (es : List Element) :
    elements g patience expand self depth param (e :: es) =
      (elements g patience expand self depth param [e] >>= fun _ =>
        elements g patience expand self depth param es) := by
  cases e with
  | literal text => simp [elements]
  | terminal name => simp [elements]
  | symbol name =>
    by_cases h : name = self
    · simp [elements, h]
    · simp [elements, h]

theorem elements_append (es fs : List Element) :
    elements g patience expand self depth param (es ++ fs) =
      (elements g patience expand self depth param es >>= fun _ =>
        elements g patience expand self depth param fs) := by
  induction es with
  | nil => simp [elements]
  | cons e es ih => rw [List.cons_append, elements_cons, ih, elements_cons e es, bind_assoc]

theorem writes_elements_cons {e : Element} {es : List Element} {V W U : List String → Prop}
    (he : WritesText (elements g patience expand self depth param [e]) L V)
    (hes : WritesText (elements g patience expand self depth param es) L W)
    (hU : ∀ ws ws', V ws → W ws' → U (ws ++ ws')) :
    WritesText (elements g patience expand self depth param (e :: es)) L U := by
  rw [elements_cons]
  exact he.seq hes hU

theorem writes_literal (text : String) :
    WritesText (elements g patience expand self depth param [.literal text]) L
      fun ws => ws = [text] := by
  have h := @writes_write σ L (.ofLiteral text) text fun _ => rfl
  simpa [elements] using h

/-- What stands for a value is drawn from the samplers.  No value shapes the page. -/
theorem writes_terminal {name : String} (hname : g.config.placeholders.contains name = true)
    {D : String → Prop} (h : (g.sampling.sample patience name param : Draw σ String).Gives D)
    (hplain : ∀ w, D w → Mark.ofLiteral w = .word w) :
    WritesText (elements g patience expand self depth param [.terminal name]) L
      fun ws => ∃ w, D w ∧ ws = [w] := by
  have hwrite : WritesText (terminal g patience name param : Expand σ Unit) L
      fun ws => ∃ w, D w ∧ ws = [w] := by
    rw [terminal, if_pos hname]
    refine Writes.draw h fun w hw => WritesText.mono (writes_write fun p => ?_)
      fun ws hws => ⟨w, hw, hws⟩
    rw [hplain w hw]
    rfl
  simpa [elements] using hwrite

theorem writes_symbol_of_ne {name : String} (hname : name ≠ self)
    (h : Writes (expand name depth param) L fun _ => T) :
    Writes (elements g patience expand self depth param [.symbol name]) L fun _ => T := by
  simpa [elements, hname] using h

/-- The symbol itself is expanded one level deeper. -/
theorem writes_symbol_self (hdepth : depth + 1 < Number.wordCount)
    (h : Writes (expand self (depth + 1) param) L fun _ => T) :
    Writes (elements g patience expand self depth param [.symbol self]) L fun _ => T := by
  have hcount := Writes.bind (R := fun (_ : Unit) => T) (@writes_count σ L (·.recur (depth + 1)))
    (f := fun _ => expand self (depth + 1) param) fun _ ws L' hws => by
      obtain ⟨rfl, rfl⟩ := hws
      exact h
  simpa [elements, deeper_of_lt g hdepth] using hcount

/-- A head, and what stands between braces behind it. -/
theorem writes_block {head : Element} {body : List Element}
    {W : List String → List String → Prop}
    (hhead : Writes (elements g patience expand self depth param [head]) L fun _ => T)
    (hbody : ∀ us L', T us L' →
      Writes (elements g patience expand self depth param body) L' fun _ vs _ => W us vs) :
    Writes (elements g patience expand self depth param (Grammar.block head body)) L
      fun _ ws _ => ∃ us vs, W us vs ∧ ws = us ++ "\x7b" :: (vs ++ ["\x7d"]) := by
  rw [Grammar.block, elements_cons]
  refine hhead.bind fun _ us L' hus => ?_
  rw [elements_cons]
  refine Writes.bind (writes_literal "\x7b") fun _ _ L'' hopen => ?_
  obtain ⟨rfl, rfl⟩ := hopen
  rw [elements_append]
  refine (hbody us L'' hus).bind fun _ vs _ hvs => ?_
  refine Writes.mono (writes_literal "\x7d") ?_
  intro _ ws _ hclose
  exact ⟨us, vs, hvs, by rw [hclose.2]; rfl⟩

theorem writes_productions_cons {p : Production} {ps : List Production}
    {V W U : List String → Prop}
    (hp : WritesText (production g patience expand self depth param p) L V)
    (hps : WritesText (productions g patience expand self depth param ps) L W)
    (hU : ∀ ws ws', V ws → W ws' → U (ws ++ ws')) :
    WritesText (productions g patience expand self depth param (p :: ps)) L U := by
  rw [productions]
  exact hp.seq hps hU

end

/-! ## Alternatives -/

theorem writes_alternative {ps : List Production} {i : Nat} {p : Production}
    (h : ps[i]? = some p) :
    Writes (alternative (Rule.ofProductions ps) i : Expand σ Production) L
      fun a ws L' => a = p ∧ ws = [] ∧ L' = L := by
  rw [alternative, Rule.productions_ofProductions, h]
  exact writes_pure ⟨rfl, rfl, rfl⟩

/-- Productions are looked up one by one. -/
theorem writes_mapM_alternative {ps qs : List Production} {is : List Nat}
    (h : List.Forall₂ (fun i q => ps[i]? = some q) is qs) :
    Writes (is.mapM (alternative (Rule.ofProductions ps)) : Expand σ (List Production)) L
      fun found ws L' => found = qs ∧ ws = [] ∧ L' = L := by
  induction h with
  | nil => exact writes_pure ⟨rfl, rfl, rfl⟩
  | cons hi _ ih =>
    rw [List.mapM_cons]
    refine (writes_alternative hi).bind fun q ws L' hq => ?_
    obtain ⟨rfl, rfl, rfl⟩ := hq
    refine ih.bind fun found ws L' hfound => ?_
    obtain ⟨rfl, rfl, rfl⟩ := hfound
    exact writes_pure ⟨rfl, rfl, rfl⟩

/-- Some production is chosen, at the bound one that is not self-recursive, if the rule has
one of these. -/
theorem writes_chooseAlternative [RandomSource σ] (patience maxDepth depth : Nat)
    {ps : List Production} {q : Production} (hq : q ∈ ps) (hbase : q.selfRecursive = false) :
    Writes (chooseAlternative patience maxDepth depth (Rule.ofProductions ps) :
        Expand σ (Option Production)) L
      fun choice ws L' => (∃ p ∈ ps, choice = some p ∧
        (maxDepth ≤ depth → p.selfRecursive = false)) ∧ ws = [] ∧ L' = L := by
  have hsome : ∀ {i : Nat} {p : Production}, ps[i]? = some p →
      (maxDepth ≤ depth → p.selfRecursive = false) →
      Writes (some <$> alternative (Rule.ofProductions ps) i : Expand σ (Option Production)) L
        fun choice ws L' => (∃ p ∈ ps, choice = some p ∧
          (maxDepth ≤ depth → p.selfRecursive = false)) ∧ ws = [] ∧ L' = L := by
    intro i p hp hrec
    rw [map_eq_pure_bind]
    refine (writes_alternative hp).bind fun a ws L' ha => ?_
    obtain ⟨rfl, rfl, rfl⟩ := ha
    exact writes_pure ⟨⟨a, List.mem_of_getElem? hp, rfl, hrec⟩, rfl, rfl⟩
  unfold chooseAlternative
  split
  · -- at the bound
    obtain ⟨k, hk, hget⟩ := List.getElem_of_mem hq
    have hne : (Rule.ofProductions ps).nonRecursive ≠ [] := by
      refine List.ne_nil_of_mem (a := k) (Rule.mem_nonRecursive_ofProductions.2 ⟨q, ?_, hbase⟩)
      rw [List.getElem?_eq_getElem hk, hget]
    refine Writes.draw (Draw.gives_choose patience hne) fun choice hchoice => ?_
    obtain ⟨i, hi, rfl⟩ := hchoice
    obtain ⟨p, hp, hrec⟩ := Rule.mem_nonRecursive_ofProductions.1 hi
    exact hsome hp fun _ => hrec
  · next hbound =>
    rw [Rule.productions_ofProductions]
    have hpos : 0 < ps.length := List.length_pos_of_mem hq
    refine Writes.draw (Draw.gives_below patience .word hpos) fun i hi => ?_
    refine hsome (List.getElem?_eq_getElem hi) fun hdepth => ?_
    -- A self-recursive production would make the rule recursive, and this is the bound.
    by_contra hrec
    rw [Bool.not_eq_false] at hrec
    have hrule := Rule.isRecursive_ofProductions.2 ⟨_, List.getElem_mem hi, hrec⟩
    simp [hrule, hdepth] at hbound

/-! ## The type of a layer -/

/-- A word that stands between blanks is what is left when they are trimmed. -/
theorem trim_blanks_append {blanks word : List Char} (hblanks : ∀ c ∈ blanks, c = ' ')
    (hne : word ≠ []) (hword : ∀ c ∈ word, Text.isBlank c = false) :
    Text.trim (blanks ++ word) = word := by
  have hend : ((blanks ++ word).reverse.dropWhile Text.isBlank).reverse = blanks ++ word := by
    obtain ⟨c, cs, hcs⟩ := List.exists_cons_of_ne_nil (List.reverse_ne_nil_iff.2 hne)
    have hc : Text.isBlank c = false :=
      hword c (List.mem_reverse.1 (hcs ▸ List.mem_cons_self ..))
    rw [List.reverse_append, hcs, List.cons_append, List.dropWhile_cons_of_neg (by simp [hc]),
      ← List.cons_append, ← hcs, ← List.reverse_append, List.reverse_reverse]
  have hblank : ∀ c ∈ blanks, Text.isBlank c = true := by
    intro c hc
    rw [hblanks c hc]
    decide
  obtain ⟨c, cs, rfl⟩ := List.exists_cons_of_ne_nil hne
  have hc : Text.isBlank c = false := hword c (List.mem_cons_self ..)
  rw [Text.trim, Text.trimEnd, hend, Text.trimStart, List.dropWhile_append_of_pos hblank,
    List.dropWhile_cons_of_neg (by simp [hc])]

theorem writes_asLayerType {w : String} (hplain : Mark.ofLiteral w = .word w)
    (hne : w.isEmpty = false) (hword : ∀ c ∈ w.toList, Text.isBlank c = false) :
    Writes (asLayerType (Expand.write (.word w)) : Expand σ Unit) L
      fun _ ws L' => ws = [w] ∧ L' = some w := by
  intro s _
  obtain ⟨blanks, htext, hblanks⟩ := s.page.textFrom?_write hne
  have hnil : w.toList ≠ [] := by
    intro h
    rw [String.toList_eq_nil_iff] at h
    simp [h] at hne
  have htrim := trim_blanks_append hblanks hnil hword
  let written : State σ :=
    { s with marks := .word w :: s.marks, page := s.page.write w }
  have hrun : (asLayerType (Expand.write (.word w)) : Expand σ Unit) s = .done ((),
      { written with layerType := some (String.ofList (Text.trim (blanks ++ w.toList))) }) := by
    have hpage : written.page.textFrom? s.page.size = some (blanks ++ w.toList) := htext
    have hwrite : (Expand.write (.word w) : Expand σ Unit) s = .done ((), written) := rfl
    rw [asLayerType, Draw.get_bind, Draw.bind_apply, hwrite, Outcome.done_bind, Draw.get_bind,
      hpage]
    rfl
  rw [hrun]
  show Outcome.Yields (.done ((), { written with layerType := _ })) _
  rw [htrim, String.ofList_toList]
  refine ⟨[w], ?_, rfl, rfl⟩
  rw [List.map_singleton, hplain]
  rfl

end NeuralArch.Generator
