import Mathlib.Logic.Relation
import NeuralArch.Proofs.Grammar.Standard
import NeuralArch.Proofs.Lexing.Longest
import NeuralArch.Proofs.Syntax.Reading

/-!
# Derivations of the built-in grammar

The language of descriptions is given twice: by rules, for the generator, and by a
recursive descent, for the reader.  Here each element of the rules gets a language
of token kinds, a symbol the one that its name promises, and every alternative of a
symbol stays inside the language of the symbol.  So a step of a derivation never
leaves the language of what it started from, and whatever is derived from the start
symbol is a sentence.

* `Step`, `Derives` — derivations, which rewrite one symbol at a time.
* `reads` — the tokens that an element without a symbol can be read as.
* `phrase` — the language of elements in a row.
* `phrase_le_of_mem_standardRules` — each alternative, rule by rule.
* `Derives.exists_tree` — what is derived is read.
-/

namespace NeuralArch.Grammar

open Token
open Syntax (mark oneOf param description)
open scoped Computability

/-! ## Derivations -/

/-- One symbol is replaced by an alternative of it. -/
inductive Step (g : Grammar) : List Element → List Element → Prop
  | rewrite {name : String} {r : Rule} {p : Production} (before after : List Element)
      (hrule : g.rule? name = some r) (hp : p ∈ r.productions) :
      Step g (before ++ .symbol name :: after) (before ++ p.elements ++ after)

/-- Any number of steps, anywhere and in any order. -/
def Derives (g : Grammar) : List Element → List Element → Prop := Relation.ReflTransGen (Step g)

variable {g : Grammar} {u v u' v' : List Element}

theorem Step.context (h : Step g u v) (before after : List Element) :
    Step g (before ++ u ++ after) (before ++ v ++ after) := by
  cases h with
  | rewrite front back hrule hp =>
    have hstep := Step.rewrite (before ++ front) (back ++ after) hrule hp
    simpa only [List.append_assoc, List.cons_append] using hstep

/-- What stands side by side is derived side by side. -/
theorem Derives.append (h : Derives g u v) (h' : Derives g u' v') :
    Derives g (u ++ u') (v ++ v') := by
  have hleft : Relation.ReflTransGen (Step g) (u ++ u') (v ++ u') := by
    refine Relation.ReflTransGen.lift (fun w => w ++ u') (fun a b hstep => ?_) u v h
    exact Step.context hstep [] u'
  have hright : Relation.ReflTransGen (Step g) (v ++ u') (v ++ v') := by
    refine Relation.ReflTransGen.lift (fun w => v ++ w) (fun a b hstep => ?_) u' v' h'
    have hstep' := Step.context hstep v []
    rwa [List.append_nil, List.append_nil] at hstep'
  exact hleft.trans hright

theorem derives_refl (u : List Element) : Derives g u u := Relation.ReflTransGen.refl

theorem Derives.block {head word : Element} (hhead : Derives g [head] [word])
    (h : Derives g u v) : Derives g (block head u) (block word v) :=
  hhead.append ((derives_refl [.literal "\x7b"]).append (h.append (derives_refl [.literal "\x7d"])))

/-- A symbol derives what one of its alternatives does. -/
theorem derives_alternative {name : String} (hu : ∃ r ∈ standardRules, r.1 = name ∧ u ∈ r.2)
    (h : Derives standard u v) : Derives standard [.symbol name] v := by
  obtain ⟨r, hr, rfl, hu⟩ := hu
  have hp : Production.ofElements r.1 u ∈
      (Rule.ofProductions (r.2.map (Production.ofElements r.1))).productions := by
    rw [Rule.productions_ofProductions]
    exact List.mem_map_of_mem hu
  have hstep := Step.rewrite [] [] (rule?_standard hr) hp
  rw [List.append_nil] at hstep
  exact Relation.ReflTransGen.head hstep h

/-! ## Elements as tokens -/

/-- Whether an element is read as a token of a kind: a literal as the token that it spells, one
placeholder as an integer and the other as any number. -/
def reads : Element → Kind → Bool
  | .literal text, k => k.spelling? == some text
  | .terminal name, k => name == "INT" && k == .int || name == "FLOAT" && k.isNumber
  | .symbol _, _ => false

def isSymbol : Element → Bool
  | .symbol _ => true
  | _ => false

/-- A symbol is replaced, and everything else is read as some token. -/
def Readable (e : Element) : Prop := isSymbol e = true ∨ ∃ k, reads e k = true

theorem readable_of_mem_standardRules {name : String} {alts : List (List Element)}
    {es : List Element} (hrule : (name, alts) ∈ standardRules) (hes : es ∈ alts) :
    ∀ e ∈ es, Readable e := by
  have hall : ∀ r ∈ standardRules, ∀ es ∈ r.2, ∀ e ∈ es,
      (isSymbol e || Kind.all.any (reads e)) = true := by
    decide
  intro e he
  rcases Bool.or_eq_true_iff.1 (hall _ hrule es hes e he) with h | h
  · exact .inl h
  · obtain ⟨k, -, hk⟩ := List.any_eq_true.1 h
    exact .inr ⟨k, hk⟩

theorem readable_of_derives {u v : List Element} (h : Derives standard u v)
    (hu : ∀ e ∈ u, Readable e) : ∀ e ∈ v, Readable e := by
  induction h with
  | refl => exact hu
  | tail _ hstep ih =>
    cases hstep with
    | rewrite before after hrule hp =>
      obtain ⟨alts, halts, hes⟩ := exists_mem_standardRules hrule hp
      rw [List.forall_mem_append, List.forall_mem_cons] at ih
      rw [List.forall_mem_append, List.forall_mem_append]
      exact ⟨⟨ih.1, readable_of_mem_standardRules halts hes⟩, ih.2.2⟩

/-! ## Languages of elements -/

/-- The language that the name of a symbol promises. -/
def symbolLanguage : String → Language Kind
  | "ann" => description
  | "input_layer" => Syntax.block .input
  | "input_params" => (param .input)∗
  | "input_param" => param .input
  | "hidden_layers" => (Syntax.block .hidden)∗
  | "hidden_layer" => Syntax.block .hidden
  | "layer_type" => Syntax.head .hidden
  | "layer_params" => (param .hidden)∗
  | "layer_param" => param .hidden
  | "activation_fn" => Syntax.value .activation
  | "kernel_initializer" => Syntax.value .initializer
  | "padding" => Syntax.value .padding
  | "pool_type" => Syntax.value .poolType
  | "dilation_list" => Syntax.value .dilationList
  | "dilation_items" => mark .int * (mark .comma * mark .int)∗
  | "output_layer" => Syntax.block .output
  | "output_params" => (param .output)∗
  | "output_param" => param .output
  | _ => 0

/-- The token kinds that an element stands for. -/
def elementLanguage : Element → Language Kind
  | .symbol name => symbolLanguage name
  | e => oneOf (reads e)

/-- The token kinds that elements in a row stand for. -/
def phrase (es : List Element) : Language Kind := (es.map elementLanguage).prod

@[simp] theorem phrase_nil : phrase [] = 1 := rfl

@[simp] theorem phrase_cons (e : Element) (es : List Element) :
    phrase (e :: es) = elementLanguage e * phrase es := by
  rw [phrase, List.map_cons, List.prod_cons, phrase]

theorem phrase_append (es fs : List Element) : phrase (es ++ fs) = phrase es * phrase fs := by
  rw [phrase, List.map_append, List.prod_append, phrase, phrase]

/-- A word is the spelling of one kind. -/
theorem spelling_injective {k k' : Kind} {word : String} (hk : k.spelling? = some word)
    (hk' : k'.spelling? = some word) : k = k' :=
  Lexing.pattern_injective ((Lexing.mem_pattern_of_spelling? hk).2 rfl)
    ((Lexing.mem_pattern_of_spelling? hk').2 rfl)

/-- A literal stands for the one kind that it spells. -/
theorem elementLanguage_literal {k : Kind} {word : String} (hk : k.spelling? = some word) :
    elementLanguage (.literal word) = mark k := by
  ext ks
  rw [elementLanguage, Syntax.mem_oneOf_iff, Syntax.mem_mark_iff]
  constructor
  · rintro ⟨k', hk', rfl⟩
    rw [reads, beq_iff_eq] at hk'
    rw [spelling_injective hk' hk]
  · rintro rfl
    exact ⟨k, by rw [reads, hk, beq_self_eq_true], rfl⟩
  · simp

/-- Elements that are read one by one are a word of their language. -/
theorem mem_phrase {es : List Element} {ks : List Kind}
    (h : List.Forall₂ (fun e k => reads e k = true) es ks) : ks ∈ phrase es := by
  induction h with
  | nil => exact Language.nil_mem_one
  | @cons e k es ks hk _ ih =>
    have hone : [k] ∈ elementLanguage e := by
      cases e with
      | literal text => exact ⟨k, hk, rfl⟩
      | terminal name => exact ⟨k, hk, rfl⟩
      | symbol name => exact absurd hk Bool.false_ne_true
    rw [phrase_cons]
    exact Language.append_mem_mul hone ih

/-! ## Rule by rule -/

theorem phrase_block (head : Element) (body : List Element) :
    phrase (block head body) =
      elementLanguage head * (mark .lbrace * (phrase body * mark .rbrace)) := by
  have hopen := @elementLanguage_literal .lbrace _ rfl
  have hclose := @elementLanguage_literal .rbrace _ rfl
  rw [block, phrase_cons, phrase_cons, phrase_append, phrase_cons, hopen, hclose, phrase_nil,
    mul_one]

/-- A block with a word in front. -/
theorem phrase_block_literal {k : Kind} {word : String} (hk : k.spelling? = some word)
    (body : List Element) :
    phrase (block (.literal word) body) =
      mark k * (mark .lbrace * (phrase body * mark .rbrace)) := by
  rw [phrase_block, elementLanguage_literal hk]

/-- One or more of a symbol are among any number of it. -/
theorem phrase_oneOrMore_le {list item : String}
    (h : symbolLanguage list = (symbolLanguage item)∗) :
    ∀ es ∈ oneOrMore list item, phrase es ≤ symbolLanguage list := by
  rw [oneOrMore, h, List.forall_mem_cons, List.forall_mem_singleton]
  constructor
  · rw [phrase_cons, phrase_nil, mul_one]
    exact le_kstar
  · rw [phrase_cons, phrase_cons, phrase_nil, mul_one, elementLanguage, elementLanguage, h]
    exact mul_kstar_le_kstar

/-- The words of a class. -/
theorem phrase_wordAlternatives_le {α : Type} (all : List α) (word : α → String) (kind : α → Kind)
    {accept : Kind → Bool} (hspelling : ∀ a, (kind a).spelling? = some (word a))
    (haccept : ∀ a, accept (kind a) = true) :
    ∀ es ∈ wordAlternatives (all.map word), phrase es ≤ oneOf accept := by
  intro es hes
  obtain ⟨w, hw, rfl⟩ := List.mem_map.1 hes
  obtain ⟨a, -, rfl⟩ := List.mem_map.1 hw
  rw [phrase_cons, phrase_nil, mul_one, elementLanguage_literal (hspelling a)]
  rintro ks rfl
  exact ⟨kind a, haccept a, rfl⟩

/-- What stands for a value is a value. -/
theorem elementLanguage_valueElement_le (p : ParamName) :
    elementLanguage (valueElement p) ≤ Syntax.value p.shape := by
  rw [valueElement]
  cases p.shape with
  | number =>
    rintro ks ⟨k, hk, rfl⟩
    refine ⟨k, ?_, rfl⟩
    rw [reads, Bool.or_eq_true_iff, Bool.and_eq_true_iff, Bool.and_eq_true_iff, beq_iff_eq,
      beq_iff_eq] at hk
    rcases hk with ⟨-, rfl⟩ | ⟨-, hk⟩
    · rfl
    · exact hk
  | activation => exact le_rfl
  | initializer => exact le_rfl
  | padding => exact le_rfl
  | poolType => exact le_rfl
  | dilationList => exact le_rfl

/-- Assignments of parameters that a block admits. -/
theorem phrase_assignments_le {b : Block} {ps : List ParamName}
    (h : ∀ p ∈ ps, b.admits p = true) : ∀ es ∈ ps.map assignment, phrase es ≤ param b := by
  intro es hes
  obtain ⟨p, hp, rfl⟩ := List.mem_map.1 hes
  have hname := @elementLanguage_literal (.param p) _ rfl
  have hequals := @elementLanguage_literal .equal _ rfl
  have hsemicolon := @elementLanguage_literal .semicolon _ rfl
  have hassignment : phrase (assignment p) ≤ Syntax.assignment p := by
    rw [assignment, phrase_cons, phrase_cons, phrase_cons, phrase_cons, hname, hequals, hsemicolon,
      phrase_nil, mul_one]
    have hvalue := mul_le_mul_left (elementLanguage_valueElement_le p) (mark .semicolon)
    exact mul_le_mul_right (mul_le_mul_right hvalue _) _
  exact fun ks hks => ⟨p, h p hp, hassignment hks⟩

/-- Every alternative of a symbol stays inside the language of the symbol. -/
theorem phrase_le_of_mem_standardRules :
    ∀ r ∈ standardRules, ∀ es ∈ r.2, phrase es ≤ symbolLanguage r.1 := by
  have hcomma := @elementLanguage_literal .comma _ rfl
  have hbracket := @elementLanguage_literal .lsqb _ rfl
  have hclose := @elementLanguage_literal .rsqb _ rfl
  have hint : elementLanguage (.terminal "INT") = mark .int := by
    ext ks
    rw [elementLanguage, Syntax.mem_oneOf_iff, Syntax.mem_mark_iff]
    · simp [reads]
    · simp
  have hitems : elementLanguage (.symbol "dilation_items") =
      mark .int * (mark .comma * mark .int)∗ := rfl
  rw [standardRules]
  simp only [List.forall_mem_cons]
  refine ⟨⟨?ann, by simp⟩, ⟨?input_layer, by simp⟩, phrase_oneOrMore_le rfl,
    phrase_assignments_le (by decide), phrase_oneOrMore_le rfl, ⟨?hidden_layer, by simp⟩,
    phrase_wordAlternatives_le _ _ .layer (fun _ => rfl) (fun _ => rfl), phrase_oneOrMore_le rfl,
    phrase_assignments_le (by decide),
    phrase_wordAlternatives_le _ _ .activation (fun _ => rfl) (fun _ => rfl),
    phrase_wordAlternatives_le _ _ .initializer (fun _ => rfl) (fun _ => rfl),
    phrase_wordAlternatives_le _ _ .padding (fun _ => rfl) (fun _ => rfl),
    phrase_wordAlternatives_le _ _ .poolType (fun _ => rfl) (fun _ => rfl),
    ⟨?dilation_list, by simp⟩, ⟨?first_item, ?more_items, by simp⟩, ⟨?output_layer, by simp⟩,
    phrase_oneOrMore_le rfl, phrase_assignments_le (by decide), by simp⟩
  case ann =>
    rw [@phrase_block_literal .neuralnet _ rfl]
    simp only [phrase_cons, phrase_nil, mul_one, mul_assoc]
    exact le_rfl
  case input_layer =>
    rw [@phrase_block_literal .input _ rfl, phrase_cons, phrase_nil, mul_one]
    exact le_rfl
  case hidden_layer =>
    rw [phrase_block, phrase_cons, phrase_nil, mul_one]
    exact le_rfl
  case dilation_list =>
    rw [phrase_cons, phrase_cons, phrase_cons, phrase_nil, mul_one, hbracket, hclose, hitems,
      mul_assoc]
    exact le_rfl
  case first_item =>
    rw [phrase_cons, phrase_nil, mul_one, hint]
    exact le_mul_of_one_le_right' one_le_kstar
  case more_items =>
    rw [phrase_cons, phrase_cons, phrase_cons, phrase_nil, mul_one, hint, hcomma, hitems,
      ← mul_assoc (mark .comma)]
    exact mul_le_mul_right mul_kstar_le_kstar _
  case output_layer =>
    rw [@phrase_block_literal .output _ rfl, phrase_cons, phrase_nil, mul_one]
    exact le_rfl

/-! ## What is derived -/

/-- A step never leaves the language. -/
theorem phrase_le_of_step {u v : List Element} (h : Step standard u v) : phrase v ≤ phrase u := by
  cases h with
  | rewrite before after hrule hp =>
    obtain ⟨alts, halts, hes⟩ := exists_mem_standardRules hrule hp
    have hle := phrase_le_of_mem_standardRules _ halts _ hes
    rw [phrase_append, phrase_append, phrase_append, phrase_cons, mul_assoc]
    exact mul_le_mul_right (mul_le_mul_left hle _) _

theorem phrase_le_of_derives {u v : List Element} (h : Derives standard u v) :
    phrase v ≤ phrase u := by
  induction h with
  | refl => exact le_rfl
  | tail _ hstep ih => exact (phrase_le_of_step hstep).trans ih

/-- What is derived from the start symbol is a sentence, however it is read. -/
theorem mem_description_of_derives {leaves : List Element} {ks : List Kind}
    (h : Derives standard [.symbol "ann"] leaves)
    (hks : List.Forall₂ (fun e k => reads e k = true) leaves ks) : ks ∈ description := by
  have hle := phrase_le_of_derives h
  rw [phrase_cons, phrase_nil, mul_one] at hle
  exact hle (mem_phrase hks)

/-- Tokens that what is derived can be read as are accepted, wherever the text ends. -/
theorem Derives.exists_tree {leaves : List Element} {ts : List Token}
    (h : Derives standard [.symbol "ann"] leaves)
    (hts : List.Forall₂ (fun e t => reads e (Token.kind t) = true) leaves ts) (fin : Position) :
    ∃ tree, Tree.ofTokens fin ts = .ok tree := by
  have hsentence := mem_description_of_derives h (List.forall₂_map_right_iff.2 hts)
  obtain ⟨tree, hshape, htokens⟩ := (Syntax.spells_description ts).1 hsentence
  exact ⟨tree, Syntax.ofTokens_eq_ok_iff.2 ⟨hshape, htokens⟩⟩

end NeuralArch.Grammar
