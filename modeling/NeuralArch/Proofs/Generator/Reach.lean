import NeuralArch.Proofs.Generator.Course
import NeuralArch.Proofs.Generator.Faultless
import NeuralArch.Proofs.Random.Words

/-!
# Every course can be taken

Without strategies a generator can take every course that its grammar allows
within the bound on self-recursion: there are words on which the expansion
makes exactly these choices and cuts nothing off.  The words are put together
along the course, choice by choice.  At the bound only alternatives that do not
refer to their symbol are drawn; but there a course within the bound takes none
that does.

One thing can come between: the text of a layer type may not be cut out, if a
literal has blanks at its end.  Without such literals nothing faults.

* `Unfolds` — the courses that a grammar allows; `Course.recursion` — how often
  a symbol follows itself on the way down.
* `Follows` — an expansion that takes a course, given the words.
* `exists_follows_elements` — words for a course, by induction on the course.
* `exists_words` — every course within the bound is taken.
-/

namespace NeuralArch

/-- No rule has more alternatives than a draw tells apart. -/
def Grammar.Drawable (g : Grammar) : Prop :=
  ∀ s r, g.rule? s = some r → r.productions.length ≤ Draw.Width.word.size ∧
    r.nonRecursive.length ≤ Draw.Width.half.size

namespace Generator

open Layout

/-! ## Courses that a grammar allows -/

namespace Course

/-- The symbol whose course it is. -/
def symbol : Course → String
  | undefined symbol => symbol
  | truncated symbol => symbol
  | chosen symbol _ _ => symbol
  | listed symbol _ => symbol

mutual

/-- The greatest number of steps from a symbol straight to itself on one way down. -/
def recursion : Course → Nat
  | undefined _ => 0
  | truncated _ => 0
  | chosen symbol _ parts => recursionAmong (some symbol) parts
  | listed _ items => recursionAmong none items

/-- The greatest number below an alternative of a symbol, or below a strategy. -/
def recursionAmong (self : Option String) : List Course → Nat
  | [] => 0
  | c :: cs =>
    Nat.max (c.recursion + if self = some c.symbol then 1 else 0) (recursionAmong self cs)

end

mutual

/-- The greatest number of steps on one way down. -/
def height : Course → Nat
  | undefined _ => 0
  | truncated _ => 0
  | chosen _ _ parts => heightAmong parts
  | listed _ items => heightAmong items

def heightAmong : List Course → Nat
  | [] => 0
  | c :: cs => Nat.max (c.height + 1) (heightAmong cs)

end

theorem recursionAmong_cons_le {self : Option String} {c : Course} {cs : List Course} {k : Nat} :
    recursionAmong self (c :: cs) ≤ k ↔
      c.recursion + (if self = some c.symbol then 1 else 0) ≤ k ∧ recursionAmong self cs ≤ k :=
  Nat.max_le

theorem heightAmong_cons_le {c : Course} {cs : List Course} {k : Nat} :
    heightAmong (c :: cs) ≤ k ↔ c.height < k ∧ heightAmong cs ≤ k :=
  Nat.max_le

end Course

/-- The courses of the symbols of some elements, one for each, that a grammar allows: each symbol
with a rule is written by one of its alternatives. -/
inductive Unfolds (g : Grammar) : List Element → List Course → Prop
  | nil : Unfolds g [] []
  | literal {es : List Element} {cs : List Course} (text : String) (htail : Unfolds g es cs) :
      Unfolds g (.literal text :: es) cs
  | terminal {es : List Element} {cs : List Course} (name : String) (htail : Unfolds g es cs) :
      Unfolds g (.terminal name :: es) cs
  | undefined {es : List Element} {cs : List Course} {name : String}
      (hrule : g.rule? name = none) (htail : Unfolds g es cs) :
      Unfolds g (.symbol name :: es) (.undefined name :: cs)
  | chosen {es : List Element} {cs parts : List Course} {name : String} {r : Rule} {i : Nat}
      {p : Production} (hrule : g.rule? name = some r) (hp : r.productions[i]? = some p)
      (hparts : Unfolds g p.elements parts) (htail : Unfolds g es cs) :
      Unfolds g (.symbol name :: es) (.chosen name i parts :: cs)

/-- An alternative is known by the elements at its index. -/
theorem Unfolds.symbol {g : Grammar} {es : List Element} {cs parts : List Course}
    {name : String} {i : Nat} (inner : List Element)
    (hinner : ((g.rule? name).bind (·.productions[i]?)).map Production.elements = some inner)
    (hparts : Unfolds g inner parts) (htail : Unfolds g es cs) :
    Unfolds g (.symbol name :: es) (.chosen name i parts :: cs) := by
  obtain ⟨p, hp, rfl⟩ := Option.map_eq_some_iff.1 hinner
  obtain ⟨r, hrule, hp⟩ := Option.bind_eq_some_iff.1 hp
  exact .chosen hrule hp hparts htail

theorem Unfolds.eq_nil {g : Grammar} {cs : List Course} (h : Unfolds g [] cs) : cs = [] := by
  cases h
  rfl

/-- A course that counts no step from a symbol to itself takes no alternative that refers to
it. -/
theorem Unfolds.not_mem {g : Grammar} {self : String} {es : List Element} {cs : List Course}
    (h : Unfolds g es cs) (hrec : Course.recursionAmong (some self) cs = 0) :
    .symbol self ∉ es := by
  have hcons : ∀ {c : Course} {cs : List Course},
      Course.recursionAmong (some self) (c :: cs) = 0 →
        self ≠ c.symbol ∧ Course.recursionAmong (some self) cs = 0 := by
    intro c cs hzero
    obtain ⟨hhead, htail⟩ := Course.recursionAmong_cons_le.1 hzero.le
    refine ⟨?_, Nat.le_zero.1 htail⟩
    rintro rfl
    rw [if_pos rfl] at hhead
    omega
  induction h with
  | nil => simp
  | literal text _ ih => simpa using ih hrec
  | terminal name _ ih => simpa using ih hrec
  | undefined _ _ ih =>
    obtain ⟨hne, htail⟩ := hcons hrec
    exact List.not_mem_cons_of_ne_of_not_mem (fun h => hne (Element.symbol.inj h)) (ih htail)
  | chosen _ _ _ _ _ ih =>
    obtain ⟨hne, htail⟩ := hcons hrec
    exact List.not_mem_cons_of_ne_of_not_mem (fun h => hne (Element.symbol.inj h)) (ih htail)

/-! ## Expansions that take a course -/

variable {α β : Type}

/-- From any state whose source begins with some words an expansion gives a value, leaves what
stands behind the words, and cuts nothing off; or the text of a layer type cannot be cut out. -/
def Follows (x : Expand WordSource α) (words : List UInt64) (a : α) : Prop :=
  ∀ (s : State WordSource) rest state, s.source = ⟨words ++ rest, state⟩ →
    (∃ t, x s = .done (a, t) ∧ t.source = ⟨rest, state⟩ ∧
      t.stats.truncations = s.stats.truncations) ∨ x s = .fault .sliceOutside

theorem follows_pure (a : α) : Follows (pure a) [] a :=
  fun s _ _ hs => .inl ⟨s, rfl, hs, rfl⟩

theorem Follows.bind {x : Expand WordSource α} {f : α → Expand WordSource β}
    {words words' : List UInt64} {a : α} {b : β} (h : Follows x words a)
    (hf : Follows (f a) words' b) : Follows (x >>= f) (words ++ words') b := by
  intro s rest state hs
  rw [List.append_assoc] at hs
  rw [Draw.bind_apply]
  rcases h s _ _ hs with ⟨t, hx, hsource, htruncations⟩ | hfault
  · rw [hx, Outcome.done_bind]
    rcases hf t _ _ hsource with ⟨u, hfa, hsource', htruncations'⟩ | hfault
    · exact .inl ⟨u, hfa, hsource', htruncations'.trans htruncations⟩
    · exact .inr hfault
  · right
    rw [hfault, Outcome.fault_bind]

/-- What draws nothing may stand in front. -/
theorem Follows.after {x : Expand WordSource α} {f : α → Expand WordSource β}
    {words : List UInt64} {a : α} {b : β} (h : Follows x [] a) (hf : Follows (f a) words b) :
    Follows (x >>= f) words b := h.bind hf

theorem Follows.map {x : Expand WordSource α} {words : List UInt64} {a : α}
    (h : Follows x words a) (f : α → β) : Follows (f <$> x) words (f a) := by
  rw [map_eq_pure_bind, ← List.append_nil words]
  exact h.bind (follows_pure (f a))

theorem follows_draw {d : Draw WordSource α} {words : List UInt64} {a : α}
    (h : d.Draws words a) : Follows (Expand.draw d) words a := by
  intro s rest state hs
  refine .inl ⟨{ s with source := ⟨rest, state⟩ }, ?_, rfl, rfl⟩
  rw [draw_eq_done]
  exact ⟨_, by rw [hs, h], rfl⟩

theorem follows_write (m : Layout.Mark) : Follows (Expand.write m) [] () :=
  fun s _ _ hs => .inl ⟨s.written m, rfl, hs, rfl⟩

theorem follows_recur (depth : Nat) :
    Follows (Expand.count (·.recur depth)) [] () :=
  fun s _ _ hs => .inl ⟨{ s with stats := s.stats.recur depth }, rfl, hs, rfl⟩

theorem follows_deeper (g : Generator) {depth : Nat} (h : depth + 1 < Number.wordCount) :
    Follows (deeper g depth) [] (depth + 1) := by
  rw [deeper_of_lt g h]
  exact follows_pure _

theorem follows_indexed {r : Rule} {i : Nat} {p : Production} (h : r.productions[i]? = some p) :
    Follows (indexed r i) [] (p, i) := by
  rw [indexed, alternative, h]
  exact (follows_pure p).map _

/-- The text of a layer type is cut out, or it cannot be. -/
theorem follows_trackLayerType {body : Expand WordSource α} {words : List UInt64} {a : α}
    (h : Follows body words a) : Follows (trackLayerType body) words a := by
  intro s rest state hs
  rw [trackLayerType_apply]
  rcases h s rest state hs with ⟨t, hbody, hsource, htruncations⟩ | hfault
  · rw [hbody, Outcome.done_bind]
    dsimp only
    cases t.page.textFrom? s.page.size with
    | none => exact .inr rfl
    | some cs => exact .inl ⟨_, rfl, hsource, htruncations⟩
  · right
    rw [hfault, Outcome.fault_bind]

/-! ## Words for a course -/

section

variable {g : Generator} {maxDepth : Nat}

/-- An alternative whose course leaves room at a depth is chosen by some words. -/
theorem exists_follows_trackChoice (hbuilt : g.grammar.Built) (hdrawable : g.grammar.Drawable)
    {name : String} {r : Rule} {i : Nat} {p : Production} {parts : List Course} {depth : Nat}
    (hrule : g.grammar.rule? name = some r) (hp : r.productions[i]? = some p)
    (hunfolds : Unfolds g.grammar p.elements parts)
    (hrec : Course.recursionAmong (some name) parts + depth ≤ maxDepth) :
    ∃ words, ∀ patience, 0 < patience →
      Follows (trackChoice patience maxDepth depth r) words (some (p, i)) := by
  obtain ⟨hlength, hfallback⟩ := hdrawable name r hrule
  by_cases hcond : (r.isRecursive && decide (maxDepth ≤ depth)) = true
  · rw [Bool.and_eq_true, decide_eq_true_iff] at hcond
    have hle := hcond.2
    -- At the bound there is no step left, so the alternative does not refer to its symbol.
    have hmem : i ∈ r.nonRecursive :=
      (hbuilt.mem_nonRecursive_iff hrule).2 ⟨p, hp, hunfolds.not_mem (by omega)⟩
    obtain ⟨words, hwords⟩ := Draw.exists_draws_choose hmem hfallback
    refine ⟨words ++ [], fun patience hpatience => ?_⟩
    rw [trackChoice, if_pos (by simpa using hcond)]
    exact (follows_draw (hwords patience hpatience)).bind ((follows_indexed hp).map some)
  · obtain ⟨hlt, -⟩ := List.getElem?_eq_some_iff.1 hp
    obtain ⟨words, hwords⟩ := Draw.exists_draws_below hlt hlength
    refine ⟨words ++ [], fun patience hpatience => ?_⟩
    rw [trackChoice, if_neg hcond]
    exact (follows_draw (hwords patience hpatience)).bind ((follows_indexed hp).map some)

theorem exists_follows_terminal (hsampling : g.sampling = SamplingTable.standard) (name : String)
    (param : Option String) :
    ∃ words, ∀ patience, 0 < patience → Follows (terminal g patience name param) words () := by
  by_cases hname : g.config.placeholders.contains name = true
  · obtain ⟨words, text, hwords⟩ := exists_draws_sample (sound_standard name param)
    refine ⟨words ++ [], fun patience hpatience => ?_⟩
    rw [terminal, if_pos hname, hsampling]
    exact (follows_draw (hwords patience hpatience)).bind (follows_write _)
  · refine ⟨[], fun patience _ => ?_⟩
    rw [terminal, if_neg hname]
    exact follows_write _

/-- A symbol without a rule takes no words. -/
theorem follows_undefined {name : String} (hrule : g.grammar.rule? name = none)
    (patience n depth : Nat) (param : Option String) :
    Follows (trackSymbol g patience maxDepth (n + 1) name depth param) []
      (.undefined name) := by
  rw [trackSymbol, hrule]
  exact (follows_write _).after (follows_pure _)

/-- Words for the parts of an alternative, with those that choose it, are words for its
symbol. -/
theorem exists_follows_chosen (hbuilt : g.grammar.Built) (hplain : g.config.strategies = ∅)
    (hdrawable : g.grammar.Drawable) {name : String} {r : Rule} {i : Nat} {p : Production}
    {parts : List Course} {depth limit : Nat} (param : Option String)
    (hrule : g.grammar.rule? name = some r) (hp : r.productions[i]? = some p)
    (hunfolds : Unfolds g.grammar p.elements parts)
    (hrec : Course.recursionAmong (some name) parts + depth ≤ maxDepth)
    (hparts : ∃ words, ∀ patience n, 0 < patience → limit ≤ n →
      Follows (trackElements g patience (trackSymbol g patience maxDepth n) name depth
        (p.paramName?.or param) p.elements) words parts) :
    ∃ words, ∀ patience n, 0 < patience → limit < n →
      Follows (trackSymbol g patience maxDepth n name depth param) words
        (.chosen name i parts) := by
  obtain ⟨words, hwords⟩ := exists_follows_trackChoice hbuilt hdrawable hrule hp hunfolds hrec
  obtain ⟨inner, hinner⟩ := hparts
  have hnone : g.config.strategies[name]? = none := by simp [hplain]
  by_cases hempty : p.isEmpty = true
  · refine ⟨words ++ [], fun patience n hpatience hn => ?_⟩
    obtain ⟨m, rfl⟩ : ∃ m, n = m + 1 := ⟨n - 1, by omega⟩
    rw [trackSymbol_of_rule hrule hnone]
    refine (hwords patience hpatience).bind ?_
    rw [Production.isEmpty, List.isEmpty_iff] at hempty
    rw [hempty] at hunfolds
    rw [trackChosen, if_pos (by simp [Production.isEmpty, hempty]), hunfolds.eq_nil]
    exact follows_pure _
  · refine ⟨words ++ inner, fun patience n hpatience hn => ?_⟩
    obtain ⟨m, rfl⟩ : ∃ m, n = m + 1 := ⟨n - 1, by omega⟩
    have hbody : Follows (trackProduction g patience (trackSymbol g patience maxDepth m) name depth
        param (p, i)) inner (.chosen name i parts) := by
      rw [trackProduction, ← map_eq_pure_bind]
      exact (hinner patience m hpatience (by omega)).map _
    rw [trackSymbol_of_rule hrule hnone]
    refine (hwords patience hpatience).bind ?_
    rw [trackChosen, if_neg hempty]
    split
    · exact follows_trackLayerType hbody
    · exact hbody

/-- One symbol after the other, one level deeper if it is the one whose alternative this is. -/
theorem follows_symbol_cons {patience depth : Nat} {param : Option String} {self name : String}
    {expand : String → Nat → Option String → Expand WordSource Course} {es : List Element}
    {words words' : List UInt64} {c : Course} {cs : List Course}
    (hnext : name = self → depth + 1 < Number.wordCount)
    (h : Follows (expand name (if name = self then depth + 1 else depth) param) words c)
    (htail : Follows (trackElements g patience expand self depth param es) words' cs) :
    Follows (trackElements g patience expand self depth param (.symbol name :: es))
      (words ++ words') (c :: cs) := by
  have hrest := htail.map fun cs => c :: cs
  rw [map_eq_pure_bind] at hrest
  rw [trackElements]
  split
  · next heq =>
    rw [if_pos heq] at h
    exact (follows_deeper g (hnext heq)).after ((follows_recur _).after (h.bind hrest))
  · next hne =>
    rw [if_neg hne] at h
    exact h.bind hrest

/-- Words for the courses of the symbols of some elements.  Inside an alternative of a symbol a
step to the symbol itself counts, so the depth on the way down is never more than the steps that
are counted. -/
theorem exists_follows_elements (hbuilt : g.grammar.Built) (hplain : g.config.strategies = ∅)
    (hsampling : g.sampling = SamplingTable.standard) (hdrawable : g.grammar.Drawable)
    (hmax : maxDepth < Number.wordCount) {es : List Element} {cs : List Course}
    (h : Unfolds g.grammar es cs) :
    ∀ self depth param, Course.recursionAmong (some self) cs + depth ≤ maxDepth →
      ∃ words, ∀ patience n, 0 < patience → Course.heightAmong cs ≤ n →
        Follows (trackElements g patience (trackSymbol g patience maxDepth n) self depth param es)
          words cs := by
  induction h with
  | nil => exact fun self depth param _ => ⟨[], fun patience n _ _ => follows_pure []⟩
  | literal text _ ih =>
    intro self depth param hrec
    obtain ⟨words, hwords⟩ := ih self depth param hrec
    exact ⟨words, fun patience n hpatience hn =>
      (follows_write _).after (hwords patience n hpatience hn)⟩
  | terminal name _ ih =>
    intro self depth param hrec
    obtain ⟨value, hvalue⟩ := exists_follows_terminal hsampling name param
    obtain ⟨words, hwords⟩ := ih self depth param hrec
    exact ⟨value ++ words, fun patience n hpatience hn =>
      (hvalue patience hpatience).bind (hwords patience n hpatience hn)⟩
  | @undefined es cs name hrule _ ih =>
    intro self depth param hrec
    obtain ⟨hself, hrest⟩ := Course.recursionAmong_cons_le.1 (Nat.le_sub_of_add_le hrec)
    obtain ⟨words, hwords⟩ := ih self depth param (by omega)
    have hnext : name = self → depth + 1 < Number.wordCount := by
      intro heq
      rw [Course.symbol, if_pos (congrArg some heq.symm)] at hself
      omega
    refine ⟨[] ++ words, fun patience n hpatience hn => ?_⟩
    obtain ⟨hhead, htail⟩ := Course.heightAmong_cons_le.1 hn
    obtain ⟨m, rfl⟩ : ∃ m, n = m + 1 := ⟨n - 1, by omega⟩
    exact follows_symbol_cons hnext (follows_undefined hrule patience m _ param)
      (hwords patience _ hpatience htail)
  | @chosen es cs parts name r i p hrule hp hparts _ ihparts ih =>
    intro self depth param hrec
    obtain ⟨hself, hrest⟩ := Course.recursionAmong_cons_le.1 (Nat.le_sub_of_add_le hrec)
    rw [Course.recursion, Course.symbol] at hself
    obtain ⟨words, hwords⟩ := ih self depth param (by omega)
    obtain ⟨inner, hdepth⟩ : ∃ inner, inner = if name = self then depth + 1 else depth :=
      ⟨_, rfl⟩
    have hnext : name = self → depth + 1 < Number.wordCount := by
      intro heq
      rw [if_pos (congrArg some heq.symm)] at hself
      omega
    have hinner : Course.recursionAmong (some name) parts + inner ≤ maxDepth := by
      by_cases heq : name = self
      · rw [if_pos heq] at hdepth
        rw [if_pos (congrArg some heq.symm)] at hself
        omega
      · rw [if_neg heq] at hdepth
        omega
    obtain ⟨chosen, hchosen⟩ := exists_follows_chosen hbuilt hplain hdrawable param hrule hp hparts
      hinner (ihparts name inner (p.paramName?.or param) hinner)
    refine ⟨chosen ++ words, fun patience n hpatience hn => ?_⟩
    obtain ⟨hhead, htail⟩ := Course.heightAmong_cons_le.1 hn
    rw [hdepth] at hchosen
    exact follows_symbol_cons hnext (hchosen patience n hpatience hhead)
      (hwords patience n hpatience htail)

/-! ## Expansions that take a course -/

/-- An expansion stops at the fault that it stops at with its course. -/
theorem symbol_eq_fault {σ : Type} [RandomSource σ] {patience n depth : Nat} {name : String}
    {param : Option String} {s : State σ} {f : Fault}
    (h : trackSymbol g patience maxDepth n name depth param s = .fault f) :
    symbol g patience maxDepth n name depth param s = .fault f := by
  rw [← forget_trackSymbol]
  show (trackSymbol g patience maxDepth n name depth param s >>= fun r => .done ((), r.2)) =
    .fault f
  rw [h, Outcome.fault_bind]

/-- Every course that a grammar allows a symbol within the bound is taken on some words, with
nothing cut off, unless the text of a layer type cannot be cut out; and with no blanks at the ends
of the grammar's words it can. -/
theorem exists_words {maxDepth : UInt64} (hbuilt : g.grammar.Built)
    (hplain : g.config.strategies = ∅)
    (hsampling : g.sampling = SamplingTable.standard) (hdrawable : g.grammar.Drawable)
    {name : String} (hname : (g.grammar.rule? name).isSome = true) {c : Course}
    (hc : Unfolds g.grammar [.symbol name] [c]) (hrec : c.recursion ≤ maxDepth.toNat) :
    ∃ words, ∀ limits : Limits, 0 < limits.patience → c.height < limits.descent →
      (∃ e rest, g.expand limits name 0 maxDepth (WordSource.ofWords words) =
          .ok (.done (e, rest)) ∧
        g.track limits name 0 maxDepth (WordSource.ofWords words) = .ok (.done (c, e, rest)) ∧
        e.stats.truncations = 0) ∨
      (¬ g.grammar.Trimmed ∧ g.expand limits name 0 maxDepth (WordSource.ofWords words) =
        .ok (.fault .sliceOutside)) := by
  cases hc with
  | undefined hrule => simp [hrule] at hname
  | @chosen _ _ parts _ r i p hrule hp hparts _ =>
    have hrule' : g.grammar.rule name = .ok r := by rw [Grammar.rule, hrule]
    rw [Course.recursion] at hrec
    obtain ⟨words, hwords⟩ := exists_follows_chosen hbuilt hplain hdrawable none hrule hp hparts
      hrec (exists_follows_elements hbuilt hplain hsampling hdrawable maxDepth.toNat_lt hparts
        name 0 _ hrec)
    refine ⟨words, fun limits hpatience hheight => ?_⟩
    rw [Course.height] at hheight
    rcases hwords limits.patience limits.descent hpatience hheight
      (g.start (WordSource.ofWords words)) [] 0 (by rw [List.append_nil]; rfl) with
      ⟨t, hrun, -, htruncations⟩ | hfault
    · have htrack : g.track limits name 0 maxDepth (WordSource.ofWords words) =
          .ok (.done (_, (finish t).1, (finish t).2)) :=
        track_eq_done_iff.2 ⟨⟨r, hrule'⟩, t, hrun, rfl⟩
      exact .inl ⟨_, _, expand_eq_done_iff.2 ⟨_, htrack⟩, htrack, htruncations⟩
    · have hsymbol := symbol_eq_fault hfault
      refine .inr ⟨fun htrimmed => ?_, ?_⟩
      · have hnumeric : g.config.Numeric := by
          intro name item required optional probability hplan
          simp [hplain] at hplan
        have hg : g.Sound := ⟨hbuilt, htrimmed, hnumeric, hsampling⟩
        have hsafe : Safe (Overruns g name 0 maxDepth.toNat) (symbol g limits.patience
            maxDepth.toNat limits.descent name 0 none : Expand WordSource Unit) fun _ => True :=
          hg.safe_symbol maxDepth.toNat_lt _ _ _ _ fun f _ hover => hover
        have hfaults := hsafe (g.start (WordSource.ofWords words)) (Layout.Page.settled_empty _)
        rw [hsymbol] at hfaults
        cases hfaults.fault
      · rw [expand_eq_ok g limits hrule', UInt64.toNat_zero, hsymbol, Outcome.fault_bind]

theorem drawable_of_all {g : Grammar} (h : ∀ rule ∈ g.rules.toList,
      rule.2.productions.length ≤ Draw.Width.word.size ∧
        rule.2.nonRecursive.length ≤ Draw.Width.half.size) : g.Drawable :=
  fun s r hr => h (s, r) (Std.ExtTreeMap.mem_toList_iff_getElem?_eq_some.2 hr)

/-- A generator of lists, where an item has a number or is a symbol without a rule. -/
def sizeLists : Generator :=
  { ofGrammar (Grammar.ofAlternatives
      [("list", ["<item>"]), ("list", ["<item>", "\",\"", "<list>"]),
       ("item", ["\"size\"", "INT"]), ("item", ["<other>"])]) with
    config := { Config.standard with strategies := ∅ } }

/-- A list of two items, one of each kind. -/
def sizeCourse : Course :=
  .chosen "list" 1 [.chosen "item" 0 [],
    .chosen "list" 0 [.chosen "item" 1 [.undefined "other"]]]

theorem unfolds_sizeCourse : Unfolds sizeLists.grammar [.symbol "list"] [sizeCourse] := by
  have hsecond : Unfolds sizeLists.grammar [.symbol "item"]
      [.chosen "item" 1 [.undefined "other"]] :=
    .symbol [.symbol "other"] rfl (.undefined rfl .nil) .nil
  have hrest : Unfolds sizeLists.grammar [.symbol "list"]
      [.chosen "list" 0 [.chosen "item" 1 [.undefined "other"]]] :=
    .symbol [.symbol "item"] rfl hsecond .nil
  exact .symbol [.symbol "item", .literal ",", .symbol "list"] rfl
    (.symbol [.literal "size", .terminal "INT"] rfl
      (.literal _ (.terminal _ .nil)) (.literal _ hrest)) .nil

theorem exists_words_sizeCourse : ∃ words, ∃ e rest,
    sizeLists.expand ⟨8, 4⟩ "list" 0 1 (WordSource.ofWords words) = .ok (.done (e, rest)) ∧
      sizeLists.track ⟨8, 4⟩ "list" 0 1 (WordSource.ofWords words) =
        .ok (.done (sizeCourse, e, rest)) ∧
      e.stats.truncations = 0 := by
  have hbuilt : sizeLists.grammar.Built := Grammar.built_ofAlternatives _
  have hdrawable : sizeLists.grammar.Drawable := drawable_of_all (by decide)
  have htrimmed : sizeLists.grammar.Trimmed := Grammar.trimmed_of_all (by decide)
  have hrec : sizeCourse.recursion ≤ (1 : UInt64).toNat := by decide
  obtain ⟨words, hwords⟩ := exists_words hbuilt rfl rfl hdrawable rfl
    unfolds_sizeCourse hrec
  rcases hwords ⟨8, 4⟩ (by decide) (by decide) with hdone | ⟨hblank, -⟩
  · exact ⟨words, hdone⟩
  · exact absurd htrimmed hblank

/-- A generator where a layer type stands behind a word with blanks at its end, and takes them
back. -/
def paddedWord : Generator :=
  { ofGrammar (Grammar.ofAlternatives
      [("s", ["\"x   \"", "<layer_type>"]), ("layer_type", ["\";\""])]) with
    config := { Config.standard with strategies := ∅ } }

/-- What becomes of a symbol with one alternative. -/
theorem exists_run_of_single {σ : Type} [RandomSource σ] {patience n depth : Nat}
    {name : String} {param : Option String} {s t : State σ} {p : Production}
    (hrule : g.grammar.rule? name = some (Rule.ofProductions [p]))
    (hplan : g.config.strategies[name]? = none) (hempty : p.isEmpty = false)
    (hflat : p.selfRecursive = false)
    (h : symbol g patience maxDepth (n + 1) name depth param s = .done ((), t)) :
    ∃ source : σ, (if name = g.config.layerTypeSymbol then
      asLayerType (production g patience (symbol g patience maxDepth n) name depth param p)
      else production g patience (symbol g patience maxDepth n) name depth param p)
        { s with source } = .done ((), t) := by
  rw [symbol, hrule, hplan] at h
  obtain ⟨choice, u, hchoice, hrun⟩ := bind_eq_done.1 h
  cases chooseAlternative_picks hchoice with
  | none _ _ hnone =>
    have hmem : 0 ∈ (Rule.ofProductions [p]).nonRecursive :=
      Rule.mem_nonRecursive_ofProductions.2 ⟨p, rfl, hflat⟩
    simp [hnone] at hmem
  | @some i q source hq _ =>
    obtain rfl : q = p := by simpa using List.mem_of_getElem? hq
    dsimp only at hrun
    rw [if_neg (by simp [hempty])] at hrun
    exact ⟨source, hrun⟩

/-- No source makes it write its only course. -/
theorem expand_paddedWord_ne_done :
    (Unfolds paddedWord.grammar [.symbol "s"] [.chosen "s" 0 [.chosen "layer_type" 0 []]] ∧
      Course.recursion (.chosen "s" 0 [.chosen "layer_type" 0 []]) = 0) ∧
    ∀ (σ : Type) [RandomSource σ] (limits : Limits) (source rest : σ) (e : Expansion),
      paddedWord.expand limits "s" 0 0 source ≠ .ok (.done (e, rest)) := by
  refine ⟨⟨.symbol [.literal "x   ", .symbol "layer_type"] rfl
    (.literal _ (.symbol [.literal ";"] rfl (.literal _ .nil) .nil)) .nil,
    by rfl⟩, ?_⟩
  intro σ _ limits source rest e h
  obtain ⟨t, hrun, -⟩ := expand_eq_done h
  have hs : paddedWord.grammar.rule? "s" = some (Rule.ofProductions
      [⟨[.literal "x   ", .symbol "layer_type"], false⟩]) := rfl
  have htype : paddedWord.grammar.rule? "layer_type" = some (Rule.ofProductions
      [⟨[.literal ";"], false⟩]) := rfl
  have hplan : ∀ name : String, paddedWord.config.strategies[name]? = none := by
    intro name
    simp [paddedWord]
  cases hdescent : limits.descent with
  | zero =>
    rw [hdescent] at hrun
    cases hrun
  | succ n =>
    rw [hdescent] at hrun
    obtain ⟨source, hrun⟩ := exists_run_of_single hs (hplan "s") rfl rfl hrun
    rw [if_neg (by decide)] at hrun
    -- The word is written, then the layer type.
    obtain ⟨u, hword, hrun⟩ := elements_cons_eq_done hrun
    cases hword
    rw [elements, if_neg (by decide)] at hrun
    obtain ⟨_, v, hrun, -⟩ := bind_eq_done.1 hrun
    cases n with
    | zero => cases hrun
    | succ n =>
      obtain ⟨source, hrun⟩ := exists_run_of_single htype (hplan _) rfl rfl hrun
      rw [if_pos (show "layer_type" = paddedWord.config.layerTypeSymbol from rfl)] at hrun
      obtain ⟨w, cs, hbody, hcs, -⟩ := asLayerType_eq_done hrun
      obtain ⟨x, hmark, hend⟩ := elements_cons_eq_done hbody
      cases hmark
      cases hend
      -- The semicolon has taken back the blanks behind which the type begins.
      have hnone : (((Page.empty 4).mark (.word "x   ")).mark .semicolon).textFrom?
          ((Page.empty 4).mark (.word "x   ")).size = none := rfl
      exact absurd (hcs.symm.trans hnone) (by simp)

end

end Generator

end NeuralArch
