import NeuralArch.Proofs.Generator.Subset
import NeuralArch.Proofs.Generator.Writing
import NeuralArch.Proofs.Wording.Description

/-!
# What is written from the built-in grammar

Symbol by symbol: the words of a class, the items of a dilation list, a
parameter with its value, and the parameters of the input and the output.  The
descent is bounded by the depth of self-recursion, since no symbol but a
self-recursive one leads back to itself.

Nothing of this depends on the rule table and the anchors of a generator, nor on
how it chooses the parameters of a block, so it is said of every generator that
has the grammar and the samplers.

* `Builtin` — these generators.
* `writes_symbol`, `writes_oneOrMore` — a symbol without a strategy, through its alternatives.
* `writes_assignment` — every alternative that assigns a parameter.
* `writes_inputParams`, `writes_outputParams` — the strategies of the two ends.
-/

namespace NeuralArch.Generator

open Layout Wording
open NeuralArch.Grammar (standardRules assignment oneOrMore wordAlternatives block valueElement)

/-- The symbols that stand for the parameters of a block. -/
def listSymbols : List String := ["input_params", "layer_params", "output_params"]

/-- A generator for the built-in grammar with the built-in samplers.  Only parameters of blocks
may have a strategy. -/
structure Builtin (g : Generator) : Prop where
  grammar : g.grammar = Grammar.standard
  sampling : g.sampling = SamplingTable.standard
  placeholders : g.config.placeholders = Config.standard.placeholders
  layerTypeSymbol : g.config.layerTypeSymbol = "layer_type"
  plain : ∀ name, name ∉ listSymbols → g.config.strategies[name]? = none

theorem builtin_standard : Builtin standard where
  grammar := rfl
  sampling := rfl
  placeholders := rfl
  layerTypeSymbol := rfl
  plain name hname := by
    refine Std.ExtTreeMap.getElem?_ofList_of_contains_eq_false ?_
    simpa [Config.standardStrategies, listSymbols, or_comm] using hname

variable {σ : Type} [RandomSource σ] {g : Generator} {patience n depth : Nat} {maxDepth : UInt64}
  {param L : Option String}

/-! ## Symbols -/

/-- Below the bound, which is a word, there is a next depth. -/
theorem lt_wordCount_of_lt (h : depth < maxDepth.toNat) : depth + 1 < Number.wordCount :=
  Nat.lt_of_le_of_lt h maxDepth.toNat_lt

section

variable (hg : Builtin g)

include hg

theorem Builtin.rule? {name : String} {alts : List (List Element)}
    (hrule : (name, alts) ∈ standardRules) :
    g.grammar.rule? name = some (Rule.ofProductions (alts.map (Production.ofElements name))) := by
  rw [hg.grammar]
  exact Grammar.rule?_standard hrule

/-- The grammar can be evaluated through its definitions, without a look at its text. -/
theorem Builtin.eq_definitions : g =
    { g with
      grammar := (Grammar.definitions standardRules).foldl (fun g d => g.define d.1 d.2)
        Grammar.empty } := by
  rw [← Grammar.standard_eq, ← hg.grammar]

/-- A symbol without a strategy is expanded by one of its alternatives. -/
theorem symbol_eq {name : String} {alts : List (List Element)}
    (hrule : (name, alts) ∈ standardRules) (hstrategy : g.config.strategies[name]? = none) :
    (symbol g patience maxDepth.toNat (n + 1) name depth param : Expand σ Unit) = (do
      match ← chooseAlternative patience maxDepth.toNat depth
          (Rule.ofProductions (alts.map (Production.ofElements name))) with
      | none => return ()
      | some p =>
        let body := production g patience (symbol g patience maxDepth.toNat n) name
          depth param p
        if p.isEmpty then return ()
        else if name = "layer_type" then asLayerType body
        else body) := by
  rewrite [symbol, hg.rule? hrule, hstrategy, hg.layerTypeSymbol]
  rfl

/-- What all alternatives of a symbol write, the symbol writes.  At the bound the
self-recursive ones are left out. -/
theorem writes_symbol {name : String} {alts : List (List Element)}
    (hrule : (name, alts) ∈ standardRules) (hstrategy : g.config.strategies[name]? = none)
    (hname : name ≠ "layer_type") {base : List Element} (hbase : base ∈ alts)
    (hflat : base.any (·.refersTo name) = false)
    {T : List String → Option String → Prop}
    (h : ∀ es ∈ alts, (maxDepth.toNat ≤ depth → es.any (·.refersTo name) = false) →
      Writes (elements g patience (symbol g patience maxDepth.toNat n) name depth
        ((Production.ofElements name es).paramName?.or param) es : Expand σ Unit) L fun _ => T) :
    Writes (symbol g patience maxDepth.toNat (n + 1) name depth param : Expand σ Unit) L
      fun _ => T := by
  rw [symbol_eq hg hrule hstrategy]
  refine (writes_chooseAlternative patience maxDepth.toNat depth
    (List.mem_map_of_mem hbase) hflat).bind fun choice ws L' hchoice => ?_
  obtain ⟨⟨p, hp, rfl, hrec⟩, rfl, rfl⟩ := hchoice
  obtain ⟨es, hes, rfl⟩ := List.mem_map.1 hp
  have hbody := h es hes hrec
  simp only [List.nil_append, if_neg hname]
  cases es with
  | nil => exact hbody
  | cons e es => exact hbody

/-- A list is an item, and below the bound possibly a further list behind it. -/
theorem writes_oneOrMore {list item : String} (hrule : (list, oneOrMore list item) ∈ standardRules)
    (hstrategy : g.config.strategies[list]? = none) (hlist : list ≠ "layer_type")
    (hne : item ≠ list) {I R Q : List String → Prop}
    (hitem : Writes (symbol g patience maxDepth.toNat n item depth param : Expand σ Unit) L
      fun _ ws _ => I ws)
    (hrest : depth < maxDepth.toNat → ∀ L, Writes (symbol g patience maxDepth.toNat n list
      (depth + 1) param : Expand σ Unit) L fun _ ws _ => R ws)
    (hone : ∀ ws, I ws → Q ws)
    (hmore : depth < maxDepth.toNat → ∀ us vs, I us → R vs → Q (us ++ vs)) :
    Writes (symbol g patience maxDepth.toNat (n + 1) list depth param : Expand σ Unit) L
      fun _ ws _ => Q ws := by
  have hflat : [Element.symbol item].any (·.refersTo list) = false := by
    simp [Element.refersTo, hne]
  have hfirst : Writes (elements g patience (symbol g patience maxDepth.toNat n) list depth param
      [.symbol item] : Expand σ Unit) L fun _ ws _ => I ws :=
    writes_symbol_of_ne hne hitem
  refine writes_symbol hg hrule hstrategy hlist (List.mem_cons_self ..) hflat
    fun es hes hbound => ?_
  rcases List.mem_cons.1 hes with rfl | hes
  · exact hfirst.mono fun _ ws _ hI => hone ws hI
  · obtain rfl := List.mem_singleton.1 hes
    have hlt : depth < maxDepth.toNat := by
      by_contra hle
      simpa [Element.refersTo] using hbound (by omega)
    rw [elements_cons]
    refine hfirst.bind fun _ us L' hI => ?_
    exact (writes_symbol_self (lt_wordCount_of_lt hlt) (hrest hlt L')).mono
      fun _ vs _ hR => hmore hlt us vs hI hR

/-! ## Words -/

/-- The symbol of a class writes one of its words. -/
theorem writes_class {α : Type} (name : String) (all : List α) (word : α → String)
    (hrule : (name, wordAlternatives (all.map word)) ∈ standardRules)
    (hstrategy : g.config.strategies[name]? = none) (hname : name ≠ "layer_type")
    (hne : all ≠ []) :
    WritesText (symbol g patience maxDepth.toNat (n + 1) name depth param : Expand σ Unit) L
      fun ws => ∃ a, ws = [word a] := by
  obtain ⟨a, ha⟩ := List.exists_mem_of_ne_nil all hne
  refine writes_symbol hg hrule hstrategy hname
    (List.mem_map_of_mem (List.mem_map_of_mem ha)) rfl fun es hes _ => ?_
  obtain ⟨w, hw, rfl⟩ := List.mem_map.1 hes
  obtain ⟨a, -, rfl⟩ := List.mem_map.1 hw
  exact (writes_literal (word a)).mono fun ws hws => ⟨a, hws⟩

/-- The word for the type of a layer becomes the type of the layer. -/
theorem writes_layerType :
    Writes (symbol g patience maxDepth.toNat (n + 1) "layer_type" depth param : Expand σ Unit) L
      fun _ ws L' => ∃ t : LayerType, ws = [t.word] ∧ L' = some t.word := by
  have hplain : ∀ t ∈ LayerType.all, Mark.ofLiteral t.word = .word t.word ∧
      t.word.isEmpty = false ∧ t.word.toList.all (fun c => !Text.isBlank c) = true := by
    decide
  have hstart : [Element.literal LayerType.dense.word] ∈
      wordAlternatives (LayerType.all.map LayerType.word) := by
    decide
  rw [@symbol_eq σ _ g patience n depth maxDepth param hg "layer_type"
    (wordAlternatives (LayerType.all.map LayerType.word)) (by decide) (hg.plain _ (by decide))]
  refine (writes_chooseAlternative patience maxDepth.toNat depth
    (List.mem_map_of_mem hstart) rfl).bind fun choice ws L' hchoice => ?_
  obtain ⟨⟨p, hp, rfl, -⟩, rfl, rfl⟩ := hchoice
  obtain ⟨es, hes, rfl⟩ := List.mem_map.1 hp
  obtain ⟨w, hw, rfl⟩ := List.mem_map.1 hes
  obtain ⟨t, ht, rfl⟩ := List.mem_map.1 hw
  obtain ⟨hword, hne, hblank⟩ := hplain t ht
  have hbody : production g patience (symbol g patience maxDepth.toNat n) "layer_type"
      depth param (Production.ofElements "layer_type" [.literal t.word]) =
        (Expand.write (.word t.word) : Expand σ Unit) := by
    simp [production, Production.ofElements, elements, hword]
  simp only [List.nil_append, hbody, if_pos]
  have hall : ∀ c ∈ t.word.toList, Text.isBlank c = false := by simpa using hblank
  exact (writes_asLayerType hword hne hall).mono fun _ ws L' h => ⟨t, h⟩

/-! ## Dilation lists -/

theorem writes_item (expand : String → Nat → Option String → Expand σ Unit) (self : String) :
    WritesText (elements g patience expand self depth (some ParamName.dilations.word)
      [.terminal "INT"]) L fun ws => ∃ w, ItemText w ∧ ws = [w] :=
  writes_terminal (by rw [hg.placeholders]; decide) (by
    rw [hg.sampling]
    exact (gives_sample_item patience).mono fun _ h => ⟨h.1, h.2⟩)
    fun _ h => Page.ofLiteral_of_inner (Lexing.inner_of_number rfl h.integer)

/-- The words of the items of a list. -/
def ItemWords (ws : List String) : Prop :=
  ∃ first rest, ItemText first ∧ (∀ item ∈ rest, ItemText item) ∧ ws = first :: moreItems rest

/-- An item, and below the bound possibly more of them. -/
theorem writes_dilationItems_step
    (h : depth < maxDepth.toNat → WritesText (symbol g patience maxDepth.toNat n "dilation_items"
      (depth + 1) (some ParamName.dilations.word) : Expand σ Unit) L ItemWords) :
    WritesText (symbol g patience maxDepth.toNat (n + 1) "dilation_items" depth
      (some ParamName.dilations.word) : Expand σ Unit) L ItemWords := by
  have hrule : ("dilation_items", [[.terminal "INT"],
      [.terminal "INT", .literal ",", .symbol "dilation_items"]]) ∈ standardRules := by
    decide
  refine writes_symbol hg hrule (hg.plain _ (by decide)) (by decide) (List.mem_cons_self ..) rfl
    fun es hes hbound => ?_
  rcases List.mem_cons.1 hes with rfl | hes
  · exact (writes_item hg _ _).mono fun ws ⟨w, hw, hws⟩ => ⟨w, [], hw, by simp, hws⟩
  · obtain rfl := List.mem_singleton.1 hes
    have hdepth : depth < maxDepth.toNat := by
      by_contra hle
      exact absurd (hbound (by omega)) (by decide)
    have htail : WritesText (elements g patience (symbol g patience maxDepth.toNat n)
        "dilation_items" depth (some ParamName.dilations.word)
        [.literal ",", .symbol "dilation_items"] : Expand σ Unit) L
        fun ws => ∃ items, ItemWords items ∧ ws = "," :: items := by
      refine writes_elements_cons (writes_literal ",")
        (writes_symbol_self (lt_wordCount_of_lt hdepth) (h hdepth)) ?_
      intro comma items hcomma hitems
      exact ⟨items, hitems, by rw [hcomma, List.singleton_append]⟩
    refine writes_elements_cons (writes_item hg _ _) htail ?_
    intro us vs hitem hmore
    obtain ⟨w, hw, rfl⟩ := hitem
    obtain ⟨_, ⟨first, rest, hfirst, hrest, rfl⟩, rfl⟩ := hmore
    exact ⟨w, first :: rest, hw, List.forall_mem_cons.2 ⟨hfirst, hrest⟩, rfl⟩

/-- The items of a dilation list: as many steps down as the depth of the recursion allows. -/
theorem writes_dilationItems (h : maxDepth.toNat ≤ n + depth) :
    WritesText (symbol g patience maxDepth.toNat (n + 1) "dilation_items" depth
      (some ParamName.dilations.word) : Expand σ Unit) L ItemWords := by
  -- The step to the symbol itself adds to the depth and takes from the descent.
  induction n generalizing depth with
  | zero => exact writes_dilationItems_step hg fun hdepth => absurd hdepth (by omega)
  | succ n ih => exact writes_dilationItems_step hg fun _ => ih (by omega)

theorem writes_dilationList (h : maxDepth.toNat ≤ n + depth) :
    WritesText (symbol g patience maxDepth.toNat (n + 2) "dilation_list" depth
      (some ParamName.dilations.word) : Expand σ Unit) L
      (Value RuleTable.standard .dilations) := by
  have hrule : ("dilation_list", [[.literal "[", .symbol "dilation_items", .literal "]"]]) ∈
      standardRules := by
    decide
  refine writes_symbol hg hrule (hg.plain _ (by decide)) (by decide) (List.mem_cons_self ..) rfl
    fun es hes _ => ?_
  obtain rfl := List.mem_singleton.1 hes
  have htail : WritesText (elements g patience (symbol g patience maxDepth.toNat (n + 1))
      "dilation_list" depth (some ParamName.dilations.word)
      [.symbol "dilation_items", .literal "]"] : Expand σ Unit) L
      fun ws => ∃ items, ItemWords items ∧ ws = items ++ ["]"] := by
    refine writes_elements_cons (writes_symbol_of_ne (by decide) (writes_dilationItems hg h))
      (writes_literal "]") ?_
    intro items close hitems hclose
    exact ⟨items, hitems, by rw [hclose]⟩
  refine writes_elements_cons (writes_literal "[") htail ?_
  intro bracket ws hbracket hws
  obtain ⟨_, ⟨first, rest, hfirst, hrest, rfl⟩, rfl⟩ := hws
  rw [hbracket]
  exact .dilations rfl hfirst hrest

/-! ## Parameters -/

/-- The symbols whose alternatives assign a parameter. -/
def paramSymbols : List String := ["input_param", "layer_param", "output_param"]

theorem writes_number {p : ParamName} (hshape : p.shape = .number) (self : String)
    (expand : String → Nat → Option String → Expand σ Unit) :
    WritesText (elements g patience expand self depth (some p.word)
      [.terminal p.placeholder]) L (Value RuleTable.standard p) := by
  have hplaceholder : ∀ p ∈ ParamName.all,
      Config.standard.placeholders.contains p.placeholder = true := by
    decide
  refine (writes_terminal (by rw [hg.placeholders]; exact hplaceholder p p.mem_all)
    (by rw [hg.sampling]; exact gives_sample patience hshape) fun text htext => ?_).mono ?_
  · obtain ⟨k, hk, hfits⟩ := htext.number
    exact Page.ofLiteral_of_inner (Lexing.inner_of_number hk hfits)
  · intro ws hws
    obtain ⟨text, htext, rfl⟩ := hws
    exact .number hshape htext

omit hg in
/-- A symbol whose words are values of a parameter. -/
theorem writes_valueOf {α : Type} {self name : String} {p : ParamName} {word : α → String}
    (hne : name ≠ self)
    (h : WritesText (symbol g patience maxDepth.toNat (n + 2) name depth (some p.word) :
      Expand σ Unit) L fun ws => ∃ a, ws = [word a])
    (hvalue : ∀ a, Value RuleTable.standard p [word a]) :
    WritesText (elements g patience (symbol g patience maxDepth.toNat (n + 2)) self depth
      (some p.word) [.symbol name] : Expand σ Unit) L (Value RuleTable.standard p) := by
  refine (writes_symbol_of_ne hne h).mono ?_
  intro _ ws L' hws
  obtain ⟨hL, a, rfl⟩ := hws
  exact ⟨hL, hvalue a⟩

/-- The value of a parameter is of its shape. -/
theorem writes_value {self : String} (hself : self ∈ paramSymbols) (h : maxDepth.toNat ≤ n + depth)
    (p : ParamName) :
    WritesText (elements g patience (symbol g patience maxDepth.toNat (n + 2)) self depth
      (some p.word) [valueElement p] : Expand σ Unit) L (Value RuleTable.standard p) := by
  have hne : ∀ name, name ∉ paramSymbols → name ≠ self := by
    intro name hname heq
    exact hname (heq ▸ hself)
  unfold valueElement
  cases hshape : p.shape with
  | number => exact writes_number hg hshape self _
  | activation =>
    exact writes_valueOf (hne "activation_fn" (by decide)) (writes_class hg _ Activation.all
      Activation.word (by decide) (hg.plain _ (by decide)) (by decide) (by decide))
      (.activation hshape)
  | initializer =>
    exact writes_valueOf (hne "kernel_initializer" (by decide)) (writes_class hg _ Initializer.all
      Initializer.word (by decide) (hg.plain _ (by decide)) (by decide) (by decide))
      (.initializer hshape)
  | padding =>
    exact writes_valueOf (hne "padding" (by decide)) (writes_class hg _ PaddingMode.all
      PaddingMode.word (by decide) (hg.plain _ (by decide)) (by decide) (by decide))
      (.padding hshape)
  | poolType =>
    exact writes_valueOf (hne "pool_type" (by decide)) (writes_class hg _ PoolType.all
      PoolType.word (by decide) (hg.plain _ (by decide)) (by decide) (by decide)) (.poolType hshape)
  | dilationList =>
    have hp : ∀ p ∈ ParamName.all, p.shape = .dilationList → p = .dilations := by decide
    obtain rfl := hp p p.mem_all hshape
    exact writes_symbol_of_ne (hne _ (by decide)) (writes_dilationList hg h)

end

/-- The words of assignments of some parameters, in order. -/
def AssignmentWords (ps : List ParamName) (ws : List String) : Prop :=
  ∃ as : List Assignment, as.map Assignment.param = ps ∧
    (∀ a ∈ as, Value RuleTable.standard a.param a.value) ∧ ws = as.flatMap Assignment.words

theorem AssignmentWords.append {ps qs : List ParamName} {ws ws' : List String}
    (h : AssignmentWords ps ws) (h' : AssignmentWords qs ws') :
    AssignmentWords (ps ++ qs) (ws ++ ws') := by
  obtain ⟨as, rfl, has, rfl⟩ := h
  obtain ⟨bs, rfl, hbs, rfl⟩ := h'
  exact ⟨as ++ bs, List.map_append, List.forall_mem_append.2 ⟨has, hbs⟩, List.flatMap_append.symm⟩

theorem assignmentWords_nil : AssignmentWords [] [] := ⟨[], rfl, by simp, rfl⟩

/-- The alternative that assigns a parameter. -/
def assigning (item : String) (p : ParamName) : Production :=
  Production.ofElements item (assignment p)

@[simp] theorem paramName?_assigning (item : String) (p : ParamName) :
    (assigning item p).paramName? = some p.word := rfl

section

variable (hg : Builtin g)

include hg

/-- The alternative that assigns a parameter writes an assignment of it. -/
theorem writes_assignment {item : String} (hitem : item ∈ paramSymbols)
    (h : maxDepth.toNat ≤ n + depth) (p : ParamName) :
    WritesText (production g patience (symbol g patience maxDepth.toNat (n + 2)) item
      depth param (assigning item p) : Expand σ Unit) L (AssignmentWords [p]) := by
  rw [production, paramName?_assigning]
  have hvalue : WritesText (elements g patience (symbol g patience maxDepth.toNat (n + 2))
      item depth (some p.word) [valueElement p, .literal ";"] : Expand σ Unit) L
      fun ws => ∃ value, Value RuleTable.standard p value ∧ ws = value ++ [";"] := by
    refine writes_elements_cons (writes_value hg hitem h p) (writes_literal ";") ?_
    intro value semicolon hvalue hsemicolon
    exact ⟨value, hvalue, by rw [hsemicolon]⟩
  have htail : WritesText (elements g patience (symbol g patience maxDepth.toNat (n + 2))
      item depth (some p.word) [.literal "=", valueElement p, .literal ";"] : Expand σ Unit) L
      fun ws => ∃ value, Value RuleTable.standard p value ∧ ws = "=" :: (value ++ [";"]) := by
    refine writes_elements_cons (writes_literal "=") hvalue ?_
    intro equals ws hequals hws
    obtain ⟨value, hvalue, rfl⟩ := hws
    exact ⟨value, hvalue, by rw [hequals, List.singleton_append]⟩
  refine writes_elements_cons (writes_literal p.word) htail ?_
  intro name ws hname hws
  obtain ⟨value, hvalue, rfl⟩ := hws
  exact ⟨[⟨p, value⟩], rfl, by simpa using hvalue, by simp [hname, Assignment.words]⟩

theorem writes_assignments {item : String} (hitem : item ∈ paramSymbols)
    (h : maxDepth.toNat ≤ n + depth) (ps : List ParamName) :
    WritesText (productions g patience (symbol g patience maxDepth.toNat (n + 2)) item
      depth param (ps.map (assigning item)) : Expand σ Unit) L (AssignmentWords ps) := by
  induction ps with
  | nil => exact writes_pure ⟨rfl, assignmentWords_nil⟩
  | cons p ps ih =>
    exact writes_productions_cons (writes_assignment hg hitem h p) ih fun _ _ h₁ h₂ => h₁.append h₂

/-! ## Strategies -/

/-- A symbol with a strategy is expanded by it. -/
theorem symbol_eq_strategy {name : String} {alts : List (List Element)}
    (hrule : (name, alts) ∈ standardRules) {s : Strategy}
    (hstrategy : g.config.strategies[name]? = some s) :
    (symbol g patience maxDepth.toNat (n + 1) name depth param : Expand σ Unit) =
      strategy g patience (symbol g patience maxDepth.toNat n) depth param s := by
  rw [symbol, hg.rule? hrule, hstrategy]

/-- The rule of an item of a strategy. -/
theorem rule?_item {item : String} {ps : List ParamName}
    (hrule : (item, ps.map assignment) ∈ standardRules) :
    g.grammar.rule? item = some (Rule.ofProductions (ps.map (assigning item))) := by
  refine (hg.rule? hrule).trans ?_
  rw [List.map_map]
  rfl

/-- The input has all its parameters. -/
theorem writes_inputParams
    (hstrategy : g.config.strategies["input_params"]? = some (.allRequired "input_param"))
    (h : maxDepth.toNat ≤ n + depth) :
    WritesText (symbol g patience maxDepth.toNat (n + 3) "input_params" depth param :
      Expand σ Unit) L (AssignmentWords Grammar.inputParams) := by
  have hrule : ("input_params", oneOrMore "input_params" "input_param") ∈ standardRules := by
    decide
  have hitem : ("input_param", Grammar.inputParams.map assignment) ∈ standardRules := by decide
  rw [symbol_eq_strategy hg hrule hstrategy, strategy, Strategy.item, rule?_item hg hitem]
  dsimp only
  rw [Rule.productions_ofProductions]
  exact writes_assignments hg (by decide) h Grammar.inputParams

omit hg in
/-- A required parameter is written for certain. -/
theorem gives_isWritten {required optional : List String} {probability : Float}
    (hp : (probability == 1 || (0 ≤ probability && probability < 1)) = true) (item : String)
    (p : ParamName) :
    (isWritten required optional probability (assigning item p) : Draw σ Bool).Gives
      fun written => required.contains p.word = true → written = true := by
  rw [isWritten, paramName?_assigning]
  dsimp only
  by_cases hrequired : required.contains p.word = true
  · rw [if_pos hrequired]
    exact Draw.gives_pure fun _ => rfl
  · rw [if_neg hrequired]
    split
    · exact (Draw.gives_chance hp).mono fun _ _ h => absurd h hrequired
    · exact Draw.gives_pure fun h => absurd h hrequired

theorem writes_outputProductions {item : String} (hitem : item ∈ paramSymbols)
    (h : maxDepth.toNat ≤ n + depth) {required optional : List String} {probability : Float}
    (hp : (probability == 1 || (0 ≤ probability && probability < 1)) = true)
    (ps : List ParamName) :
    WritesText (outputProductions g patience (symbol g patience maxDepth.toNat (n + 2))
      item depth param required optional probability (ps.map (assigning item)) : Expand σ Unit) L
      fun ws => ∃ qs, (∀ q ∈ qs, q ∈ ps) ∧ (∀ p ∈ ps, required.contains p.word = true → p ∈ qs) ∧
        AssignmentWords qs ws := by
  induction ps with
  | nil => exact writes_pure ⟨rfl, [], by simp, by simp, assignmentWords_nil⟩
  | cons p ps ih =>
    rw [List.map_cons, outputProductions]
    refine Writes.draw (gives_isWritten hp item p) fun written hwritten => ?_
    cases written with
    | true =>
      refine WritesText.seq (writes_assignment hg hitem h p) ih ?_
      intro ws ws' hws hrest
      obtain ⟨qs, hsub, hreq, hws'⟩ := hrest
      refine ⟨p :: qs, ?_, ?_, hws.append hws'⟩
      · exact List.forall_mem_cons.2 ⟨by simp, fun q hq => List.mem_cons_of_mem _ (hsub q hq)⟩
      · exact List.forall_mem_cons.2 ⟨by simp, fun q hq hr => List.mem_cons_of_mem _ (hreq q hq hr)⟩
    | false =>
      refine WritesText.mono ih ?_
      intro ws hrest
      obtain ⟨qs, hsub, hreq, hws⟩ := hrest
      refine ⟨qs, fun q hq => List.mem_cons_of_mem _ (hsub q hq), ?_, hws⟩
      exact List.forall_mem_cons.2 ⟨fun hr => absurd (hwritten hr) (by simp), hreq⟩

/-- The output has its required parameters, and perhaps the optional one. -/
theorem writes_outputParams
    (hstrategy : g.config.strategies["output_params"]? =
      some (.output "output_param" ["units", "activation"] ["dropout"] 0.5))
    (h : maxDepth.toNat ≤ n + depth) :
    WritesText (symbol g patience maxDepth.toNat (n + 3) "output_params" depth param :
      Expand σ Unit) L
      fun ws => ∃ ps, .units ∈ ps ∧ .activation ∈ ps ∧
        (∀ p ∈ ps, Block.output.admits p = true) ∧ AssignmentWords ps ws := by
  have hrule : ("output_params", oneOrMore "output_params" "output_param") ∈ standardRules := by
    decide
  have hitem : ("output_param", Grammar.outputParams.map assignment) ∈ standardRules := by decide
  rw [symbol_eq_strategy hg hrule hstrategy, strategy, Strategy.item, rule?_item hg hitem]
  dsimp only
  rw [Rule.productions_ofProductions]
  refine (writes_outputProductions hg (by decide) h rfl
    Grammar.outputParams).mono ?_
  intro ws hparams
  obtain ⟨qs, hsub, hreq, hws⟩ := hparams
  have hadmits : ∀ p ∈ Grammar.outputParams, Block.output.admits p = true := by decide
  exact ⟨qs, hreq .units (by decide) (by decide), hreq .activation (by decide) (by decide),
    fun q hq => hadmits q (hsub q hq), hws⟩

end

end NeuralArch.Generator
