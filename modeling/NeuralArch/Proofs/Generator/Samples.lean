import NeuralArch.Command.Run
import NeuralArch.Json.Float
import NeuralArch.Proofs.Generator.Runs
import NeuralArch.Proofs.Layout.Normal
import NeuralArch.Proofs.Text.Separators

/-!
# Samples in one text

Descriptions that are generated in a row share one source, and their texts are
joined with an empty line between any two.  A tidy text has no empty line and no
line feed at its end, so the texts come back when the whole is split.

* `Samples` — a generator run time after time; `Samples.prefix_of_length_le`: running it
  more often only adds to what it came to.
* `generateMany_eq_done_iff` — what generation comes to, run by run.
* `Shows` — a text that is split into the texts of the samples.
* `run_generate_shows` — the command writes such a text, and more of it for more samples.
-/

namespace NeuralArch.Generator

open Layout Text
open String (Slice)

variable {σ : Type} [RandomSource σ] {g : Generator} {limits : Limits} {maxDepth : UInt64}

/-! ## Samples -/

/-- A generator run time after time, each time with the source as the time before left it. -/
inductive Samples (g : Generator) (limits : Limits) (maxDepth : UInt64) :
    σ → List (Option Expansion) → σ → Prop
  | nil (source : σ) : Samples g limits maxDepth source [] source
  | cons {source next last : σ} {e : Option Expansion} {es : List (Option Expansion)}
      (hfirst : g.generate limits maxDepth source = .done (e, next))
      (hrest : Samples g limits maxDepth next es last) :
      Samples g limits maxDepth source (e :: es) last

/-- The texts of samples, those without text left out. -/
def textsOf (samples : List (Option Expansion)) : List String :=
  samples.reduceOption.map Expansion.text

/-- Running a generator more often only adds to what it came to. -/
theorem Samples.prefix_of_length_le {source last last' : σ} {es es' : List (Option Expansion)}
    (h : Samples g limits maxDepth source es last)
    (h' : Samples g limits maxDepth source es' last') (hle : es.length ≤ es'.length) :
    es <+: es' := by
  induction h generalizing es' with
  | nil source => exact List.nil_prefix
  | cons hfirst _ ih =>
    cases h' with
    | nil => exact absurd hle (Nat.not_succ_le_zero _)
    | cons hfirst' hrest' =>
      obtain ⟨rfl, rfl⟩ := Prod.mk.inj (Outcome.done.inj (hfirst.symm.trans hfirst'))
      rw [List.cons_prefix_cons]
      exact ⟨rfl, ih hrest' (Nat.le_of_succ_le_succ hle)⟩

theorem textsOf_prefix {es es' : List (Option Expansion)} (h : es <+: es') :
    textsOf es <+: textsOf es' :=
  (h.filterMap id).map Expansion.text

theorem generateMany_eq_done_iff {n : Nat} {source last : σ} {texts : List String} :
    g.generateMany limits maxDepth n source = .done (texts, last) ↔
      ∃ es, Samples g limits maxDepth source es last ∧ es.length = n ∧ texts = textsOf es := by
  induction n generalizing source texts with
  | zero =>
    constructor
    · intro h
      obtain ⟨rfl, rfl⟩ := Prod.mk.inj (Outcome.done.inj h)
      exact ⟨[], .nil source, rfl, rfl⟩
    · rintro ⟨es, hes, hlength, rfl⟩
      obtain rfl := List.length_eq_zero_iff.1 hlength
      cases hes
      rfl
  | succ n ih =>
    rw [generateMany]
    constructor
    · intro h
      obtain ⟨⟨e, next⟩, hfirst, h⟩ := Outcome.bind_eq_done.1 h
      obtain ⟨⟨rest, last'⟩, hrest, h⟩ := Outcome.bind_eq_done.1 h
      obtain ⟨rfl, rfl⟩ := Prod.mk.inj (Outcome.done.inj h)
      obtain ⟨es, hes, rfl, rfl⟩ := ih.1 hrest
      refine ⟨e :: es, .cons hfirst hes, rfl, ?_⟩
      cases e <;> rfl
    · rintro ⟨es, hes, hlength, rfl⟩
      cases hes with
      | nil => exact absurd hlength (Nat.succ_ne_zero n).symm
      | @cons _ next _ e es hfirst hrest =>
        rw [hfirst, Outcome.done_bind]
        dsimp only
        rw [ih.2 ⟨es, hrest, Nat.succ.inj hlength, rfl⟩]
        cases e <;> rfl

/-! ## Their texts -/

/-- A generated text is a tidy one with something in it. -/
structure IsSample (text : String) : Prop where
  ne_empty : text ≠ ""
  normal : IsNormal text.toList

/-- What is generated is an expansion of the start symbol with some text. -/
theorem generate_eq_done_some {source next : σ} {e : Expansion}
    (h : g.generate limits maxDepth source = .done (some e, next)) :
    ∃ root ∈ g.grammar.start,
      g.expand limits root 0 maxDepth source = .ok (.done (e, next)) ∧ e.text ≠ "" := by
  rw [generate] at h
  split at h
  · cases h
  · next root hroot =>
    split at h
    · cases h
    · next run hrun =>
      obtain ⟨⟨e', source'⟩, rfl, hdone⟩ := Outcome.bind_eq_done.1 h
      dsimp only at hdone
      by_cases hempty : e'.text.isEmpty = true
      · rw [if_pos hempty] at hdone
        cases hdone
      · rw [if_neg hempty] at hdone
        cases hdone
        exact ⟨root, hroot, hrun, fun htext => hempty (by rw [htext]; rfl)⟩

theorem isSample_of_generate {source next : σ} {e : Expansion}
    (h : g.generate limits maxDepth source = .done (some e, next)) : IsSample e.text := by
  obtain ⟨root, -, hexpand, hne⟩ := generate_eq_done_some h
  obtain ⟨t, -, hfinish⟩ := expand_eq_done hexpand
  have htext : e.text = tidyText (.ofList t.page.text) := by
    rw [tidyText, String.toList_ofList, ← (Prod.mk.inj hfinish).1]
  exact ⟨hne, htext ▸ (tidyText_normal _).2⟩

theorem Samples.isSample {source last : σ} {es : List (Option Expansion)}
    (h : Samples g limits maxDepth source es last) : ∀ text ∈ textsOf es, IsSample text := by
  induction h with
  | nil source => exact fun text htext => absurd htext List.not_mem_nil
  | @cons source next last e es hfirst _ ih =>
    cases e with
    | none => exact ih
    | some e => exact List.forall_mem_cons.2 ⟨isSample_of_generate hfirst, ih⟩

theorem IsSample.clear {text : String} (h : IsSample text) : Clear "\n\n" text := by
  refine clear_feeds (fun row hrow hnil => ?_) h.normal.last
  obtain ⟨c, hc, -⟩ := h.normal.inked (mt String.toList_eq_nil_iff.1 h.ne_empty) row hrow
  rw [hnil] at hc
  exact absurd hc (by simp)

/-- A text that shows samples: it falls into their texts when it is split at empty lines, and
is empty if there are none. -/
structure Shows (text : String) (samples : List (Option Expansion)) : Prop where
  empty : textsOf samples = [] → text = ""
  split : textsOf samples ≠ [] →
    (text.split "\n\n").toList.map Slice.copy = textsOf samples

theorem Samples.shows {source last : σ} {es : List (Option Expansion)}
    (h : Samples g limits maxDepth source es last) :
    Shows (Command.joinTexts (textsOf es)) es where
  empty hnil := by
    rw [hnil]
    rfl
  split hne :=
    toList_split_intercalate (by decide) hne fun text htext => (h.isSample text htext).clear

end NeuralArch.Generator

namespace NeuralArch.Command

open Generator

/-! ## The command -/

variable {read : ReadFile Id} {floats : Json.FloatReader} {seed : UInt64} {o : GenerateOptions}

/-- The samples that a command comes to. -/
structure Requested (read : ReadFile Id) (seed : UInt64) (o : GenerateOptions)
    (es : List (Option Expansion)) : Prop where
  samples : ∃ g last, (readGrammar read o.grammar).run = .ok g ∧
    Samples (ofGrammar g) .ample (o.maxDepth.getD defaultMaxDepth)
      (KeyStream.ofSeed (o.seed.getD seed)) es last
  length : es.length = o.count.getD 1

theorem generated_eq_ok_iff {σ : Type} [RandomSource σ] {g : Grammar} {maxDepth : UInt64} {n : Nat}
    {source : σ} {text : String} :
    generated g maxDepth n source = .ok text ↔
      ∃ es last, Samples (ofGrammar g) .ample maxDepth source es last ∧ es.length = n ∧
        text = joinTexts (textsOf es) := by
  rw [generated]
  constructor
  · intro h
    split at h
    · next texts last hmany =>
      obtain ⟨es, hes, hlength, rfl⟩ := generateMany_eq_done_iff.1 hmany
      exact ⟨es, last, hes, hlength, (Except.ok.inj h).symm⟩
    · cases h
  · rintro ⟨es, last, hes, hlength, rfl⟩
    rw [generateMany_eq_done_iff.2 ⟨es, hes, hlength, rfl⟩]

theorem emits_inj {text text' : String} {output : Option String} :
    Result.emits text output = Result.emits text' output ↔ text = text' := by
  cases output <;> simp [Result.emits]

theorem fails_ne_emits (f : Failure) (text : String) (output : Option String) :
    Result.fails f ≠ Result.emits text output := by
  cases output <;> simp [Result.emits]

theorem run_generate_of_error {f : Failure} (h : (readGrammar read o.grammar).run = .error f) :
    run read floats seed (.generate o) = .fails f := by
  rw [run, result, ExceptT.run_bind, h]
  rfl

theorem run_bind_of_ok {α β : Type} {x : ExceptT Failure Id α} {a : α} (h : x.run = .ok a)
    (f : α → ExceptT Failure Id β) : (x >>= f).run = (f a).run := by
  rw [ExceptT.run_bind, h]
  rfl

/-- With a grammar the command writes what is generated, or fails as generation does. -/
theorem run_generate_of_ok {g : Grammar} {r : Result}
    (hg : (readGrammar read o.grammar).run = .ok g)
    (htext : ∀ text, generated g (o.maxDepth.getD defaultMaxDepth) (o.count.getD 1)
      (KeyStream.ofSeed (o.seed.getD seed)) = .ok text → Result.emits text o.output = r)
    (hfault : ∀ f, generated g (o.maxDepth.getD defaultMaxDepth) (o.count.getD 1)
      (KeyStream.ofSeed (o.seed.getD seed)) = .error f → .fails f = r) :
    run read floats seed (.generate o) = r := by
  rw [run, result, run_bind_of_ok hg]
  dsimp only
  generalize generated g (o.maxDepth.getD defaultMaxDepth) (o.count.getD 1)
    (KeyStream.ofSeed (o.seed.getD seed)) = x at htext hfault ⊢
  cases x with
  | error f => exact hfault f rfl
  | ok text => exact htext text rfl

/-- What the command writes when generation comes to an end. -/
theorem run_generate_eq_emits_iff {text : String} :
    run read floats seed (.generate o) = Result.emits text o.output ↔
      ∃ es, Requested read seed o es ∧ text = joinTexts (textsOf es) := by
  constructor
  · intro h
    cases hg : (readGrammar read o.grammar).run with
    | error f =>
      rw [run_generate_of_error hg] at h
      exact absurd h (fails_ne_emits _ _ _)
    | ok g =>
      cases hgenerated : generated g (o.maxDepth.getD defaultMaxDepth) (o.count.getD 1)
          (KeyStream.ofSeed (o.seed.getD seed)) with
      | error f =>
        have hfails : run read floats seed (.generate o) = .fails f :=
          run_generate_of_ok hg (by simp [hgenerated]) (by simp [hgenerated])
        exact absurd (hfails.symm.trans h) (fails_ne_emits _ _ _)
      | ok text' =>
        have hemits : run read floats seed (.generate o) = Result.emits text' o.output :=
          run_generate_of_ok hg (by simp [hgenerated]) (by simp [hgenerated])
        obtain ⟨es, last, hes, hlength, rfl⟩ := generated_eq_ok_iff.1 hgenerated
        exact ⟨es, ⟨⟨g, last, hg, hes⟩, hlength⟩, emits_inj.1 (h.symm.trans hemits)⟩
  · rintro ⟨es, ⟨⟨g, last, hg, hes⟩, hlength⟩, rfl⟩
    have hgenerated := generated_eq_ok_iff.2 ⟨es, last, hes, hlength, rfl⟩
    exact run_generate_of_ok hg (by simp [hgenerated]) (by simp [hgenerated])

theorem Requested.shows {es : List (Option Expansion)} (h : Requested read seed o es) :
    Shows (joinTexts (textsOf es)) es := by
  obtain ⟨g, last, -, hes⟩ := h.samples
  exact hes.shows

/-- The samples that more are asked for begin with those that fewer are asked for. -/
theorem Requested.begins {es es' : List (Option Expansion)} {m : Nat}
    (h : Requested read seed o es) (h' : Requested read seed { o with count := some m } es')
    (hle : o.count.getD 1 ≤ m) : es <+: es' := by
  obtain ⟨g, last, hg, hes⟩ := h.samples
  obtain ⟨g', last', hg', hes'⟩ := h'.samples
  obtain rfl := Except.ok.inj (hg.symm.trans hg')
  refine hes.prefix_of_length_le hes' ?_
  rw [h.length, h'.length]
  exact hle

/-- The text that the command writes falls into what was generated, in order, when it is split at
empty lines, and asking for more only adds to that. -/
theorem run_generate_shows {text : String}
    (h : run read floats seed (.generate o) = Result.emits text o.output) :
    ∃ es, Requested read seed o es ∧ Shows text es ∧
      ∀ m text', o.count.getD 1 ≤ m →
        run read floats seed (.generate { o with count := some m }) = Result.emits text' o.output →
        ∃ es', Requested read seed { o with count := some m } es' ∧ Shows text' es' ∧
          es <+: es' ∧ textsOf es <+: textsOf es' := by
  obtain ⟨es, hes, rfl⟩ := run_generate_eq_emits_iff.1 h
  refine ⟨es, hes, hes.shows, fun m text' hle h' => ?_⟩
  obtain ⟨es', hes', rfl⟩ := run_generate_eq_emits_iff.1 h'
  have hbegins := hes.begins hes' hle
  exact ⟨es', hes', hes'.shows, hbegins, textsOf_prefix hbegins⟩

/-- A grammar of nested blocks that may also be nothing at all. -/
def readBlot : ReadFile Id := fun _ =>
  .ok "<blot> ::= <<empty>> | \"spot\" \";\" | \"blot\" \"\x7b\" <blot> \"\x7d\""

def blotOptions : GenerateOptions := ⟨some "blot", some 1, none, some 3, none⟩

/-- What is written for three samples, of which one is empty. -/
def threeBlots : String := "blot \x7b\n    spot;\n\x7d\n\nspot;"

/-- What is written for five. -/
def fiveBlots : String := threeBlots ++ "\n\n" ++ threeBlots

theorem run_generate_blotOptions : ∃ es,
    Requested readBlot 0 blotOptions es ∧ Shows threeBlots es ∧
      ∃ es', Requested readBlot 0 { blotOptions with count := some 5 } es' ∧
        Shows fiveBlots es' ∧ es <+: es' ∧ textsOf es <+: textsOf es' := by
  have hthree : Id.run (run readBlot .arithmetic 0 (.generate blotOptions)) =
      Result.emits threeBlots none := by decide +kernel
  have hfive : Id.run (run readBlot .arithmetic 0
      (.generate { blotOptions with count := some 5 })) =
      Result.emits fiveBlots none := by decide +kernel
  obtain ⟨es, hes, hshows, hmore⟩ := run_generate_shows hthree
  exact ⟨es, hes, hshows, hmore 5 _ (by decide) hfive⟩

end NeuralArch.Command
