import Mathlib.Data.List.Nodup
import NeuralArch.Grammar.Standard
import NeuralArch.Proofs.Sampling.Standard
import NeuralArch.Vocabulary

/-!
# The rules of the built-in grammar

The text of the built-in grammar is read as a table of rules over the
vocabulary: the words of a class are the alternatives of one symbol, and a
parameter is assigned in the same way in every block.

* `Rule.ofProductions` — a rule with given productions.
* `rule?_foldl_define` — the rules of a grammar that is given by definitions.
* `standardRules` — the rules of the built-in grammar: `rule?_standard`, that it has
  them, and `exists_mem_standardRules`, that it has no others.
-/

namespace NeuralArch

/-! ## Rules -/

namespace Rule

/-- The rule with the given productions. -/
def ofProductions (ps : List Production) : Rule := ps.foldl push empty

theorem ofProductions_append (ps : List Production) (p : Production) :
    ofProductions (ps ++ [p]) = (ofProductions ps).push p := by
  rw [ofProductions, List.foldl_append]
  rfl

@[simp] theorem productions_ofProductions (ps : List Production) :
    (ofProductions ps).productions = ps := by
  induction ps using List.reverseRecOn with
  | nil => rfl
  | append_singleton ps p ih => rw [ofProductions_append, push, ih]

theorem mem_nonRecursive_ofProductions {ps : List Production} {i : Nat} :
    i ∈ (ofProductions ps).nonRecursive ↔ ∃ p, ps[i]? = some p ∧ p.selfRecursive = false := by
  induction ps using List.reverseRecOn with
  | nil => simp [ofProductions, empty]
  | append_singleton ps p ih =>
    have hlast : ∀ j, (ps ++ [p])[j]? = if j = ps.length then some p else ps[j]? := by
      intro j
      rcases Nat.lt_trichotomy j ps.length with hj | hj | hj
      · rw [List.getElem?_append_left hj, if_neg (by omega)]
      · rw [hj, List.getElem?_append_right (Nat.le_refl _), if_pos rfl, Nat.sub_self]
        rfl
      · rw [List.getElem?_eq_none (by simp; omega), if_neg (by omega),
          List.getElem?_eq_none (by omega)]
    have hold : i ∈ (ofProductions ps).nonRecursive → i ≠ ps.length := by
      intro hi
      obtain ⟨q, hq, -⟩ := ih.1 hi
      have := (List.getElem?_eq_some_iff.1 hq).1
      omega
    rw [ofProductions_append, push, productions_ofProductions, hlast]
    by_cases hp : p.selfRecursive = true
    · rw [if_pos hp, ih]
      by_cases hi : i = ps.length
      · simp [hi, hp]
      · rw [if_neg hi]
    · rw [if_neg hp, List.mem_append, List.mem_singleton, ih]
      by_cases hi : i = ps.length
      · simp [hi, hp]
      · simp [hi]

/-- The indices are in ascending order. -/
theorem pairwise_nonRecursive_ofProductions (ps : List Production) :
    (ofProductions ps).nonRecursive.Pairwise (· < ·) := by
  induction ps using List.reverseRecOn with
  | nil => exact .nil
  | append_singleton ps p ih =>
    rw [ofProductions_append, push, productions_ofProductions]
    dsimp only
    split
    · exact ih
    · refine List.pairwise_append.2 ⟨ih, List.pairwise_singleton .., fun i hi j hj => ?_⟩
      obtain ⟨q, hq, -⟩ := mem_nonRecursive_ofProductions.1 hi
      rw [List.mem_singleton.1 hj]
      exact (List.getElem?_eq_some_iff.1 hq).1

theorem length_nonRecursive_ofProductions (ps : List Production) :
    (ofProductions ps).nonRecursive.length = ps.countP fun p => !p.selfRecursive := by
  induction ps using List.reverseRecOn with
  | nil => rfl
  | append_singleton ps p ih =>
    rw [ofProductions_append, push, List.countP_append, ← ih]
    by_cases hp : p.selfRecursive = true <;> simp [hp]

/-- A rule knows whether it has a self-recursive production. -/
theorem isRecursive_ofProductions {ps : List Production} :
    (ofProductions ps).isRecursive = true ↔ ∃ p ∈ ps, p.selfRecursive = true := by
  rw [isRecursive, bne_iff_ne, length_nonRecursive_ofProductions, productions_ofProductions, Ne,
    List.countP_eq_length]
  simp

end Rule

namespace Grammar

/-! ## Definitions -/

theorem rule?_foldl_push (g : Grammar) (s t : String) (alternatives : List (List String)) :
    (alternatives.foldl (fun g tokens => g.push s tokens) g).rule? t =
      if s = t ∧ alternatives ≠ [] then
        some ((alternatives.map (Production.ofTokens s)).foldl Rule.push
          ((g.rule? s).getD Rule.empty))
      else g.rule? t := by
  induction alternatives generalizing g with
  | nil => simp
  | cons tokens alternatives ih =>
    rw [List.foldl_cons, ih, rule?_push, rule?_push, if_pos rfl]
    by_cases hst : s = t
    · subst hst
      by_cases hnil : alternatives = []
      · simp [hnil]
      · simp [hnil]
    · simp [hst]

/-- A definition gives its symbol the rule it spells out, and no other symbol a new one. -/
theorem rule?_define {g : Grammar} {s : String} (t : String) {alternatives : List (List String)}
    (h : alternatives ≠ []) :
    (g.define s alternatives).rule? t =
      if s = t then some (Rule.ofProductions (alternatives.map (Production.ofTokens s)))
      else g.rule? t := by
  rw [define, if_neg (by simpa using h), rule?_foldl_push, rule?_discard, rule?_discard]
  by_cases hst : s = t
  · rw [if_pos ⟨hst, h⟩, if_pos rfl, if_pos hst]
    rfl
  · rw [if_neg (fun hand => hst hand.1), if_neg hst, if_neg hst]

/-- Of definitions of different symbols each gives its symbol a rule. -/
theorem rule?_foldl_define {definitions : List (String × List (List String))}
    (hnames : (definitions.map Prod.fst).Nodup) (hne : ∀ d ∈ definitions, d.2 ≠ [])
    {d : String × List (List String)} (hd : d ∈ definitions) (g : Grammar) :
    (definitions.foldl (fun g d => g.define d.1 d.2) g).rule? d.1 =
      some (Rule.ofProductions (d.2.map (Production.ofTokens d.1))) := by
  induction definitions using List.reverseRecOn with
  | nil => simp at hd
  | append_singleton before e ih =>
    rw [List.map_append, List.nodup_append] at hnames
    rw [List.foldl_append, List.foldl_cons, List.foldl_nil,
      rule?_define d.1 (hne e (by simp))]
    rcases List.mem_append.1 hd with hd | hd
    · have hother : e.1 ≠ d.1 := by
        intro heq
        exact hnames.2.2 d.1 (List.mem_map_of_mem hd) e.1 (by simp) heq.symm
      rw [if_neg hother]
      exact ih hnames.1 (fun d' hd' => hne d' (List.mem_append_left _ hd')) hd
    · obtain rfl := List.mem_singleton.1 hd
      rw [if_pos rfl]

/-- A symbol with a rule is one of those that are defined. -/
theorem exists_of_rule?_foldl_define {definitions : List (String × List (List String))}
    (hne : ∀ d ∈ definitions, d.2 ≠ []) {name : String} {r : Rule}
    (h : (definitions.foldl (fun g d => g.define d.1 d.2) empty).rule? name = some r) :
    ∃ d ∈ definitions, d.1 = name := by
  induction definitions using List.reverseRecOn with
  | nil => simp at h
  | append_singleton before d ih =>
    rw [List.foldl_append, List.foldl_cons, List.foldl_nil,
      rule?_define name (hne d (by simp))] at h
    by_cases hd : d.1 = name
    · exact ⟨d, by simp, hd⟩
    · rw [if_neg hd] at h
      obtain ⟨d', hd', hname⟩ := ih (fun d' hd' => hne d' (List.mem_append_left _ hd')) h
      exact ⟨d', List.mem_append_left _ hd', hname⟩

/-- Where there is no start symbol, the first symbol with an alternative becomes it. -/
theorem start_foldl_push (g : Grammar) (s : String) (alternatives : List (List String)) :
    (alternatives.foldl (fun g tokens => g.push s tokens) g).start =
      g.start.or (if alternatives = [] then none else some s) := by
  induction alternatives generalizing g with
  | nil => exact Option.or_none.symm
  | cons tokens alternatives ih =>
    rw [List.foldl_cons, ih, push, Option.or_assoc, Option.some_or, if_neg (List.cons_ne_nil _ _)]

theorem start_define (g : Grammar) (s : String) (alternatives : List (List String)) :
    (g.define s alternatives).start =
      g.start.or (if alternatives = [] then none else some s) := by
  by_cases h : alternatives = []
  · rw [define, if_pos (List.isEmpty_iff.2 h), if_pos h, Option.or_none]
  · rw [define, if_neg (fun hempty => h (List.isEmpty_iff.1 hempty)), start_foldl_push, discard]

/-- The start symbol stays. -/
theorem start_foldl_define {g : Grammar} {root : String} (h : g.start = some root)
    (definitions : List (String × List (List String))) :
    (definitions.foldl (fun g d => g.define d.1 d.2) g).start = some root := by
  induction definitions generalizing g with
  | nil => exact h
  | cons d definitions ih => exact ih (by rw [start_define, h, Option.some_or])

/-! ## The built-in rules -/

/-- What stands for the value of a parameter. -/
def valueElement (p : ParamName) : Element :=
  match p.shape with
  | .number => .terminal p.placeholder
  | .activation => .symbol "activation_fn"
  | .initializer => .symbol "kernel_initializer"
  | .padding => .symbol "padding"
  | .poolType => .symbol "pool_type"
  | .dilationList => .symbol "dilation_list"

/-- An alternative that assigns a parameter. -/
def assignment (p : ParamName) : List Element :=
  [.literal p.word, .literal "=", valueElement p, .literal ";"]

/-- A block: its head, and what stands between its braces. -/
def block (head : Element) (body : List Element) : List Element :=
  head :: .literal "\x7b" :: (body ++ [.literal "\x7d"])

/-- One or more of a symbol. -/
def oneOrMore (symbol item : String) : List (List Element) :=
  [[.symbol item], [.symbol item, .symbol symbol]]

/-- The words of a class. -/
def wordAlternatives (words : List String) : List (List Element) :=
  words.map fun word => [.literal word]

def inputParams : List ParamName := [.features, .sequenceLength]

def layerParams : List ParamName :=
  ParamName.all.filter fun p => !inputParams.contains p

def outputParams : List ParamName := [.units, .activation, .dropout]

/-- The symbols of the built-in grammar with their alternatives. -/
def standardRules : List (String × List (List Element)) :=
  [("ann", [block (.literal "neuralnet")
      [.symbol "input_layer", .symbol "hidden_layers", .symbol "output_layer"]]),
   ("input_layer", [block (.literal "input") [.symbol "input_params"]]),
   ("input_params", oneOrMore "input_params" "input_param"),
   ("input_param", inputParams.map assignment),
   ("hidden_layers", oneOrMore "hidden_layers" "hidden_layer"),
   ("hidden_layer", [block (.symbol "layer_type") [.symbol "layer_params"]]),
   ("layer_type", wordAlternatives (LayerType.all.map LayerType.word)),
   ("layer_params", oneOrMore "layer_params" "layer_param"),
   ("layer_param", layerParams.map assignment),
   ("activation_fn", wordAlternatives (Activation.all.map Activation.word)),
   ("kernel_initializer", wordAlternatives (Initializer.all.map Initializer.word)),
   ("padding", wordAlternatives (PaddingMode.all.map PaddingMode.word)),
   ("pool_type", wordAlternatives (PoolType.all.map PoolType.word)),
   ("dilation_list", [[.literal "[", .symbol "dilation_items", .literal "]"]]),
   ("dilation_items", [[.terminal "INT"], [.terminal "INT", .literal ",",
      .symbol "dilation_items"]]),
   ("output_layer", [block (.literal "output") [.symbol "output_params"]]),
   ("output_params", oneOrMore "output_params" "output_param"),
   ("output_param", outputParams.map assignment)]

/-- How an element is written. -/
def token : Element → List Char
  | .literal text => '"' :: (text.toList ++ ['"'])
  | .terminal name => name.toList
  | .symbol name => '<' :: (name.toList ++ ['>'])

/-- The tokens of definitions. -/
def definitions (rules : List (String × List (List Element))) :
    List (String × List (List String)) :=
  rules.map fun r => (r.1, r.2.map (·.map fun e => String.ofList (token e)))

theorem flatMap_ofList (cs : List Char) (lines : List String) :
    (String.ofList cs :: lines).flatMap (fun line => line.toList ++ ['\n']) =
      cs ++ '\n' :: lines.flatMap fun line => line.toList ++ ['\n'] := by
  rw [List.flatMap_cons, String.toList_ofList, List.append_assoc]
  rfl

set_option maxRecDepth 100000 in
/-- The sections of the built-in text are the definitions of the built-in rules. -/
theorem sections_standardText :
    (sections (flatten standardText.toList)).2.map
        (fun s => (s.1, (Text.split (· == '|') s.2).map Text.words)) =
      standardRules.map fun r => (r.1.toList, r.2.map (·.map token)) := by
  rw [standardText, String.toList_ofList, standardLines]
  repeat rw [flatMap_ofList]
  simp only [List.cons_append, List.nil_append, List.flatMap_nil]
  decide +kernel

/-- The built-in grammar is given by the definitions of the built-in rules. -/
theorem standard_eq :
    standard = (definitions standardRules).foldl (fun g d => g.define d.1 d.2) empty := by
  have hne : ∀ r ∈ standardRules, ∀ es ∈ r.2, es ≠ [] := by decide
  have hread : ∀ (cs : List Char) (g : Grammar),
      (sections cs).2.foldl (fun g s => g.define (String.ofList s.1) (alternatives s.2)) g =
        ((sections cs).2.map
          (fun s => (s.1, (Text.split (· == '|') s.2).map Text.words))).foldl
          (fun g r => g.define (String.ofList r.1)
            ((r.2.map (·.map String.ofList)).filter (!·.isEmpty))) g := by
    intro cs g
    rw [List.foldl_map]
    simp only [alternatives, List.map_map, Function.comp_def]
  have hdefine : ∀ (rules : List (String × List (List Element))) (g : Grammar),
      (∀ r ∈ rules, ∀ es ∈ r.2, es ≠ []) →
      (rules.map fun r => (r.1.toList, r.2.map (·.map token))).foldl
          (fun g r => g.define (String.ofList r.1)
            ((r.2.map (·.map String.ofList)).filter (!·.isEmpty))) g =
        (definitions rules).foldl (fun g d => g.define d.1 d.2) g := by
    intro rules
    induction rules with
    | nil => exact fun _ _ => rfl
    | cons r rules ih =>
      intro g h
      have hall : ((r.2.map (·.map token)).map (·.map String.ofList)).filter (!·.isEmpty) =
          r.2.map (·.map fun e => String.ofList (token e)) := by
        rw [List.filter_eq_self.2, List.map_map]
        · simp only [Function.comp_def, List.map_map]
        · intro tokens htokens
          simp only [List.map_map, List.mem_map, Function.comp_def] at htokens
          obtain ⟨es, hes, rfl⟩ := htokens
          simpa using h r (List.mem_cons_self ..) es hes
      rw [List.map_cons, List.foldl_cons, definitions, List.map_cons, List.foldl_cons, hall,
        String.ofList_toList]
      exact ih _ fun r' hr' => h r' (List.mem_cons_of_mem _ hr')
  rw [standard, ofText]
  exact (hread _ _).trans (by rw [sections_standardText, hdefine _ _ hne])

/-- Every built-in symbol has an alternative. -/
theorem ne_nil_of_mem_definitions :
    ∀ d ∈ definitions standardRules, d.2 ≠ [] := by
  have hne : ∀ r ∈ standardRules, r.2 ≠ [] := by decide
  intro d hd
  obtain ⟨r, hr, rfl⟩ := List.mem_map.1 hd
  simpa using hne r hr

/-- Every built-in symbol has its rule. -/
theorem rule?_standard {r : String × List (List Element)} (hr : r ∈ standardRules) :
    standard.rule? r.1 = some (Rule.ofProductions (r.2.map (Production.ofElements r.1))) := by
  have hnames : (standardRules.map Prod.fst).Nodup := by decide
  have htokens : ∀ r ∈ standardRules, ∀ es ∈ r.2,
      Production.ofTokens r.1 (es.map fun e => String.ofList (token e)) =
        Production.ofElements r.1 es := by
    decide
  have hmem : (r.1, r.2.map (·.map fun e => String.ofList (token e))) ∈
      definitions standardRules := List.mem_map.2 ⟨r, hr, rfl⟩
  rw [standard_eq, rule?_foldl_define (by simpa [definitions, Function.comp_def] using hnames)
    ne_nil_of_mem_definitions hmem, List.map_map]
  exact congrArg _ (congrArg _ (List.map_congr_left fun es hes => htokens r hr es hes))

/-- No other symbol has a rule. -/
theorem exists_mem_standardRules {name : String} {r : Rule} {p : Production}
    (hrule : standard.rule? name = some r) (hp : p ∈ r.productions) :
    ∃ alts, (name, alts) ∈ standardRules ∧ p.elements ∈ alts := by
  have hdefined := hrule
  rw [standard_eq] at hdefined
  obtain ⟨d, hd, rfl⟩ := exists_of_rule?_foldl_define ne_nil_of_mem_definitions hdefined
  obtain ⟨⟨name, alts⟩, hmem, rfl⟩ := List.mem_map.1 hd
  obtain rfl := Option.some.inj ((rule?_standard hmem).symm.trans hrule)
  rw [Rule.productions_ofProductions] at hp
  obtain ⟨es, hes, rfl⟩ := List.mem_map.1 hp
  exact ⟨alts, hmem, hes⟩

theorem start_standard : standard.start = some "ann" := by
  rw [standard_eq, definitions, standardRules, List.map_cons, List.foldl_cons]
  exact start_foldl_define (start_define empty _ _) _

end Grammar

end NeuralArch
