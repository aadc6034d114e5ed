import NeuralArch.Proofs.Meaning.Reduction

/-!
# Classes of trees

Whether a node is reduced depends on what its children contribute, and of that
only on which class each child belongs to.  The class can be read off the
child's own token or kind, so the rules can be stated on trees, without
reduction.

* `Accepts` — what the rule of a kind asks of the children.
* `Obeys`, `fault` — a tree that keeps its own rule, the error if it does not.
* `Contributes` — what trees of a class contribute.
* `combine_decides` — the rules on contributions are the rules on trees.
-/

namespace NeuralArch.Meaning

open NeuralArch.Tree
open InterpretError (Wanted)
open Token Syntax

/-! ## Classes of trees -/

/-- Kinds of node around one keyword. -/
def isWrapper : NodeKind → Bool
  | .layerType | .activationFn | .kernelInitializer => true
  | _ => false

/-- Kinds of node that assign a parameter. -/
def isAssignment : NodeKind → Bool
  | .layerParam | .inputParam | .outputParam => true
  | _ => false

/-- Trees that are passed over: tokens that are neither numbers nor keywords. -/
def isMark : Tree → Bool
  | leaf t => !t.kind.isNumber && t.kind.keyword?.isNone
  | node _ _ => false

def isInteger : Tree → Bool
  | leaf t => t.kind == .int
  | node _ _ => false

/-- Keywords, and nodes around one. -/
def isWord : Tree → Bool
  | leaf t => t.kind.keyword?.isSome
  | node k _ => isWrapper k

/-- Numbers, words and lists. -/
def isValue : Tree → Bool
  | leaf t => t.kind.isNumber || t.kind.keyword?.isSome
  | node k _ => isWrapper k || k == .dilationList

def isName : Tree → Bool
  | leaf t => t.kind.param?.isSome
  | node _ _ => false

/-! ## Rules -/

/-- What the rule of a kind asks of the children of a node. -/
def Accepts : NodeKind → List Tree → Prop
  | .layerType, cs | .activationFn, cs | .kernelInitializer, cs => ∃ c, cs = [c] ∧ isWord c = true
  | .dilationList, cs => ∀ c ∈ cs, isInteger c = true ∨ isMark c = true
  | .layerParam, cs | .inputParam, cs | .outputParam, cs =>
    ∃ name c value rest, cs = name :: c :: value :: rest ∧ isName name = true ∧
      isValue value = true
  | .hiddenLayer, cs => ∃ c ∈ cs.head?, isWord c = true
  | .inputLayer, _ | .outputLayer, _ => True
  | .ann, cs =>
    ∃ input hidden output, cs.filter (!isMark ·) = input :: (hidden ++ [output]) ∧
      input.kind? = some .inputLayer ∧ (∀ layer ∈ hidden, layer.kind? = some .hiddenLayer) ∧
      output.kind? = some .outputLayer

/-- A number that can be read, or a node whose children are as its kind wants them. -/
def Obeys : Tree → Prop
  | leaf t => (t.kind = .int → (Number.readInt64? t.value).isSome = true) ∧
      (t.kind = .float → (Number.readFloat? t.value).isSome = true)
  | node kind cs => Accepts kind cs

/-- What the rule of a kind wants of children that it does not accept. -/
def wanted : NodeKind → List Tree → Wanted
  | .layerType, _ | .activationFn, _ | .kernelInitializer, _ => .keyword
  | .dilationList, _ => .integers
  | .layerParam, _ | .inputParam, _ | .outputParam, _ => .assignment
  | .hiddenLayer, _ => .layerType
  | .inputLayer, _ | .outputLayer, _ => .order
  | .ann, cs =>
    -- A network that only ends too early is incomplete.
    match cs.filter (!isMark ·) with
    | [] => .complete
    | first :: rest =>
      if first.kind? == some .inputLayer && rest.all (·.kind? == some .hiddenLayer)
      then .complete else .order

/-- The error for a tree that breaks its own rule. -/
def fault : Tree → InterpretError
  | leaf t => .badNumber t.value t.pos
  | node kind cs => .unexpectedShape kind (wanted kind cs) ((firstTokenOfList? cs).map Token.pos)

/-! ## Contributions -/

/-- What a tree of each class contributes to the node above it. -/
inductive Contributes : Tree → Reduced → Prop
  | mark {t : Token} (h : isMark (leaf t) = true) : Contributes (leaf t) (.token t)
  | int {t : Token} {i : Int64} (h : t.kind = .int) : Contributes (leaf t) (.value (.int i))
  | float {t : Token} {x : Float} (h : t.kind = .float) :
      Contributes (leaf t) (.value (.float x))
  | keyword {t : Token} {word : String} (h : t.kind.keyword? = some word) :
      Contributes (leaf t) (.value (.text word))
  | wrapper {k : NodeKind} {cs : List Tree} {word : String} (h : isWrapper k = true) :
      Contributes (node k cs) (.value (.text word))
  | list {cs : List Tree} {is : List Int64} :
      Contributes (node .dilationList cs) (.value (.list is))
  | param {k : NodeKind} {cs : List Tree} {name : String} {v : ParamValue}
      (h : isAssignment k = true) : Contributes (node k cs) (.param name v)
  | input {cs : List Tree} {m : ParamMap} : Contributes (node .inputLayer cs) (.input m)
  | output {cs : List Tree} {m : ParamMap} : Contributes (node .outputLayer cs) (.output m)
  | hidden {cs : List Tree} {l : Layer} : Contributes (node .hiddenLayer cs) (.hidden l)
  | architecture {cs : List Tree} {a : Architecture} :
      Contributes (node .ann cs) (.architecture a)

/-! A contribution tells the class of its tree. -/

namespace Contributes

variable {t : Tree} {r : Reduced}

theorem isMark_eq (h : Contributes t r) : isMark t = r.isToken := by
  cases h with
  | mark h => rw [h, Reduced.isToken]
  | int h => simp [isMark, h, Kind.isNumber, Reduced.isToken]
  | float h => simp [isMark, h, Kind.isNumber, Reduced.isToken]
  | keyword h => simp [isMark, h, Reduced.isToken]
  | _ => rfl

theorem isWord_iff (h : Contributes t r) : isWord t = true ↔ ∃ word, r = .value (.text word) := by
  cases h with
  | mark h => simp_all [isMark, isWord]
  | int h => simp [isWord, h, Kind.keyword?]
  | float h => simp [isWord, h, Kind.keyword?]
  | keyword h => simp [isWord, h]
  | @wrapper k _ _ h => simp [isWord, h]
  | @param k _ _ _ h => cases k <;> simp_all [isAssignment, isWord, isWrapper]
  | _ => simp [isWord, isWrapper]

theorem isInteger_iff (h : Contributes t r) : isInteger t = true ↔ ∃ i, r = .value (.int i) := by
  cases h with
  | @mark t h => cases hkind : t.kind <;> simp_all [isMark, isInteger, Kind.isNumber]
  | int h => simp [isInteger, h]
  | float h => simp [isInteger, h]
  | @keyword t word h => cases hkind : t.kind <;> simp_all [isInteger, Kind.keyword?]
  | _ => simp [isInteger]

theorem isValue_iff (h : Contributes t r) : isValue t = true ↔ ∃ v, r = .value v := by
  cases h with
  | mark h => simp_all [isMark, isValue]
  | int h => simp [isValue, h, Kind.isNumber]
  | float h => simp [isValue, h, Kind.isNumber]
  | keyword h => simp [isValue, h]
  | wrapper h => simp [isValue, h]
  | @param k _ _ _ h => cases k <;> simp_all [isAssignment, isValue, isWrapper]
  | _ => simp [isValue, isWrapper]

theorem isName_iff (h : Contributes t r) :
    isName t = true ↔ ∃ name p, r = .token name ∧ name.kind.param? = some p := by
  cases h with
  | @mark t h => simp [isName, Option.isSome_iff_exists]
  | int h => simp [isName, h, Kind.param?]
  | float h => simp [isName, h, Kind.param?]
  | @keyword t word h => cases hkind : t.kind <;> simp_all [isName, Kind.keyword?, Kind.param?]
  | _ => simp [isName]

theorem input_iff (h : Contributes t r) : t.kind? = some .inputLayer ↔ ∃ m, r = .input m := by
  cases h with
  | @wrapper k _ _ h => cases k <;> simp_all [isWrapper, kind?]
  | @param k _ _ _ h => cases k <;> simp_all [isAssignment, kind?]
  | _ => simp [kind?]

theorem hidden_iff (h : Contributes t r) : t.kind? = some .hiddenLayer ↔ ∃ l, r = .hidden l := by
  cases h with
  | @wrapper k _ _ h => cases k <;> simp_all [isWrapper, kind?]
  | @param k _ _ _ h => cases k <;> simp_all [isAssignment, kind?]
  | _ => simp [kind?]

theorem output_iff (h : Contributes t r) : t.kind? = some .outputLayer ↔ ∃ m, r = .output m := by
  cases h with
  | @wrapper k _ _ h => cases k <;> simp_all [isWrapper, kind?]
  | @param k _ _ _ h => cases k <;> simp_all [isAssignment, kind?]
  | _ => simp [kind?]

theorem architecture_iff (h : Contributes t r) :
    t.kind? = some .ann ↔ ∃ a, r = .architecture a := by
  cases h with
  | @wrapper k _ _ h => cases k <;> simp_all [isWrapper, kind?]
  | @param k _ _ _ h => cases k <;> simp_all [isAssignment, kind?]
  | _ => simp [kind?]

end Contributes

/-! ## Rules on contributions -/

/-- A rule on contributions says the same as the rule on the trees they come from. -/
def Decides (kind : NodeKind) (cs : List Tree) (rs : List Reduced) : Prop :=
  (Accepts kind cs ∧ ∃ r, Architecture.combine kind rs = .ok r ∧ Contributes (node kind cs) r) ∨
    (¬ Accepts kind cs ∧ Architecture.combine kind rs = .error (wanted kind cs))

variable {cs : List Tree} {rs : List Reduced}

theorem decides_layerType (h : List.Forall₂ Contributes cs rs) : Decides .layerType cs rs := by
  rcases h with _ | ⟨hc, _ | ⟨-, -⟩⟩
  · exact .inr ⟨by simp [Accepts], rfl⟩
  · rename_i c r
    by_cases hword : isWord c = true
    · obtain ⟨word, rfl⟩ := hc.isWord_iff.1 hword
      exact .inl ⟨⟨c, rfl, hword⟩, _, rfl, .wrapper rfl⟩
    · refine .inr ⟨by simpa [Accepts] using hword, ?_⟩
      rw [hc.isWord_iff] at hword
      rw [Architecture.combine]
      · rfl
      · exact fun word heq => hword ⟨word, (List.cons.inj heq).1⟩
  · refine .inr ⟨by simp [Accepts], ?_⟩
    rw [Architecture.combine]
    · rfl
    · simp

/-- The three kinds of node around a keyword have one rule. -/
theorem decides_wrapper {k : NodeKind} (hk : isWrapper k = true)
    (h : List.Forall₂ Contributes cs rs) : Decides k cs rs := by
  have hsame : Accepts k cs = Accepts .layerType cs ∧ wanted k cs = wanted .layerType cs ∧
      Architecture.combine k rs = Architecture.combine .layerType rs := by
    cases k <;> first | exact ⟨rfl, rfl, rfl⟩ | cases hk
  rw [Decides, hsame.1, hsame.2.1, hsame.2.2]
  refine (decides_layerType h).imp_left fun ⟨haccepts, r, hr, hword⟩ => ⟨haccepts, r, hr, ?_⟩
  obtain ⟨word, rfl⟩ := hword.isWord_iff.1 rfl
  exact .wrapper hk

theorem decides_layerParam (h : List.Forall₂ Contributes cs rs) : Decides .layerParam cs rs := by
  by_cases haccepts : Accepts .layerParam cs
  · obtain ⟨name, c, value, rest, rfl, hname, hvalue⟩ := id haccepts
    rcases h with _ | ⟨hn, _ | ⟨-, _ | ⟨hv, -⟩⟩⟩
    obtain ⟨t, p, rfl, hp⟩ := hn.isName_iff.1 hname
    obtain ⟨v, rfl⟩ := hv.isValue_iff.1 hvalue
    refine .inl ⟨haccepts, .param p.word v, ?_, .param rfl⟩
    rw [Architecture.combine, hp]
  · refine .inr ⟨haccepts, ?_⟩
    by_cases hshape : ∃ t x v rest, rs = .token t :: x :: .value v :: rest
    · obtain ⟨t, x, v, rest, rfl⟩ := hshape
      have hname : t.kind.param? = none := by
        rcases h with _ | ⟨hn, _ | ⟨-, _ | ⟨hv, -⟩⟩⟩
        rw [Option.eq_none_iff_forall_ne_some]
        exact fun p hp => haccepts ⟨_, _, _, _, rfl, hn.isName_iff.2 ⟨t, p, rfl, hp⟩,
          hv.isValue_iff.2 ⟨v, rfl⟩⟩
      rw [Architecture.combine, hname]
      rfl
    · rw [Architecture.combine]
      · rfl
      · exact fun t x v rest heq => hshape ⟨t, x, v, rest, heq⟩

/-- So have the three kinds of assignment. -/
theorem decides_assignment {k : NodeKind} (hk : isAssignment k = true)
    (h : List.Forall₂ Contributes cs rs) : Decides k cs rs := by
  have hsame : Accepts k cs = Accepts .layerParam cs ∧ wanted k cs = wanted .layerParam cs ∧
      Architecture.combine k rs = Architecture.combine .layerParam rs := by
    cases k <;> first | exact ⟨rfl, rfl, rfl⟩ | cases hk
  rw [Decides, hsame.1, hsame.2.1, hsame.2.2]
  refine (decides_layerParam h).imp_left fun ⟨haccepts, r, hr, hparam⟩ => ⟨haccepts, r, hr, ?_⟩
  cases hparam with
  | wrapper hk' => cases hk'
  | param => exact .param hk

theorem dilations_cases (h : List.Forall₂ Contributes cs rs) :
    (Accepts .dilationList cs ∧ ∃ is, Architecture.dilations rs = .ok is) ∨
      (¬ Accepts .dilationList cs ∧ Architecture.dilations rs = .error .integers) := by
  simp only [Accepts]
  induction h with
  | nil => exact .inl ⟨by simp, [], rfl⟩
  | @cons c r cs rs hc _ ih =>
    rw [List.forall_mem_cons]
    by_cases hint : isInteger c = true
    · obtain ⟨i, rfl⟩ := hc.isInteger_iff.1 hint
      rw [Architecture.dilations]
      refine ih.imp ?_ ?_
      · rintro ⟨hcs, is, his⟩
        exact ⟨⟨.inl hint, hcs⟩, _, by rw [his]⟩
      · rintro ⟨hcs, herr⟩
        exact ⟨fun h => hcs h.2, by rw [herr]⟩
    by_cases hmark : isMark c = true
    · rw [hc.isMark_eq] at hmark
      obtain ⟨t, rfl⟩ : ∃ t, r = .token t := by
        cases r with
        | token t => exact ⟨t, rfl⟩
        | _ => cases hmark
      rw [Architecture.dilations]
      refine ih.imp ?_ ?_
      · rintro ⟨hcs, his⟩
        exact ⟨⟨.inr hc.isMark_eq, hcs⟩, his⟩
      · rintro ⟨hcs, herr⟩
        exact ⟨fun h => hcs h.2, herr⟩
    · refine .inr ⟨fun h => h.1.elim hint hmark, ?_⟩
      rw [hc.isInteger_iff] at hint
      rw [hc.isMark_eq] at hmark
      unfold Architecture.dilations
      split
      · next heq => cases heq
      · next heq =>
        obtain rfl := (List.cons.inj heq).1
        exact absurd rfl hmark
      · next heq => exact absurd ⟨_, (List.cons.inj heq).1⟩ hint
      · rfl

theorem decides_dilationList (h : List.Forall₂ Contributes cs rs) :
    Decides .dilationList cs rs := by
  rw [Decides, Architecture.combine]
  rcases dilations_cases h with ⟨haccepts, is, his⟩ | ⟨haccepts, herr⟩
  · exact .inl ⟨haccepts, _, by rw [his], .list⟩
  · exact .inr ⟨haccepts, by rw [herr]; rfl⟩

theorem decides_hiddenLayer (h : List.Forall₂ Contributes cs rs) :
    Decides .hiddenLayer cs rs := by
  rcases h with _ | ⟨hc, -⟩
  · exact .inr ⟨by simp [Accepts], rfl⟩
  · rename_i c r cs rs
    by_cases hword : isWord c = true
    · obtain ⟨word, rfl⟩ := hc.isWord_iff.1 hword
      exact .inl ⟨⟨c, rfl, hword⟩, _, rfl, .hidden⟩
    · refine .inr ⟨by simpa [Accepts] using hword, ?_⟩
      rw [hc.isWord_iff] at hword
      rw [Architecture.combine]
      · rfl
      · exact fun word _ heq => hword ⟨word, (List.cons.inj heq).1⟩

/-- Hidden layers, and an output layer at the end. -/
def Ends (cs : List Tree) : Prop :=
  ∃ hidden output, cs = hidden ++ [output] ∧
    (∀ layer ∈ hidden, layer.kind? = some .hiddenLayer) ∧ output.kind? = some .outputLayer

theorem ends_cons_iff {c : Tree} : Ends (c :: cs) ↔
    (c.kind? = some .hiddenLayer ∧ Ends cs) ∨ (c.kind? = some .outputLayer ∧ cs = []) := by
  constructor
  · rintro ⟨hidden, output, hcs, hhidden, houtput⟩
    cases hidden with
    | nil =>
      obtain ⟨rfl, rfl⟩ := List.cons.inj hcs
      exact .inr ⟨houtput, rfl⟩
    | cons layer hidden =>
      obtain ⟨rfl, rfl⟩ := List.cons.inj hcs
      rw [List.forall_mem_cons] at hhidden
      exact .inl ⟨hhidden.1, hidden, output, rfl, hhidden.2, houtput⟩
  · rintro (⟨hc, hidden, output, rfl, hhidden, houtput⟩ | ⟨hc, rfl⟩)
    · exact ⟨c :: hidden, output, rfl, List.forall_mem_cons.2 ⟨hc, hhidden⟩, houtput⟩
    · exact ⟨[], c, rfl, nofun, hc⟩

theorem hiddenAndOutput_cases (h : List.Forall₂ Contributes cs rs) :
    (Ends cs ∧ ∃ layers params, Architecture.hiddenAndOutput rs = .ok (layers, params)) ∨
      (¬ Ends cs ∧ Architecture.hiddenAndOutput rs = .error
        (if cs.all (·.kind? == some .hiddenLayer) then .complete else .order)) := by
  induction h with
  | nil => exact .inr ⟨fun ⟨_, _, hcs, _⟩ => by simp at hcs, rfl⟩
  | @cons c r cs rs hc hcs ih =>
    rw [ends_cons_iff, List.all_cons]
    by_cases hhidden : c.kind? = some .hiddenLayer
    · obtain ⟨l, rfl⟩ := hc.hidden_iff.1 hhidden
      rw [hhidden, BEq.rfl, Bool.true_and, Architecture.hiddenAndOutput]
      refine ih.imp ?_ ?_
      · rintro ⟨hends, layers, params, hok⟩
        exact ⟨.inl ⟨rfl, hends⟩, l :: layers, params, by rw [hok]⟩
      · rintro ⟨hends, herr⟩
        exact ⟨by simpa using hends, by rw [herr]⟩
    have hbeq : (c.kind? == some .hiddenLayer) = false := beq_eq_false_iff_ne.2 hhidden
    rw [hbeq, Bool.false_and, if_neg Bool.false_ne_true]
    by_cases houtput : c.kind? = some .outputLayer ∧ cs = []
    · obtain ⟨houtput, rfl⟩ := houtput
      obtain rfl := List.forall₂_nil_left_iff.1 hcs
      obtain ⟨params, rfl⟩ := hc.output_iff.1 houtput
      exact .inl ⟨.inr ⟨houtput, rfl⟩, [], params, rfl⟩
    · refine .inr ⟨fun h => h.elim (fun h => hhidden h.1) houtput, ?_⟩
      rw [hc.hidden_iff] at hhidden
      unfold Architecture.hiddenAndOutput
      split
      · next heq => cases heq
      · next heq => exact absurd ⟨_, (List.cons.inj heq).1⟩ hhidden
      · next heq =>
        obtain ⟨rfl, rfl⟩ := List.cons.inj heq
        exact absurd ⟨hc.output_iff.2 ⟨_, rfl⟩, List.forall₂_nil_right_iff.1 hcs⟩ houtput
      · rfl

/-- Marks contribute tokens, and nothing else does. -/
theorem forall₂_filter_marks {R : Tree → Reduced → Prop} (hR : ∀ t r, R t r → Contributes t r)
    (h : List.Forall₂ R cs rs) :
    List.Forall₂ R (cs.filter (!isMark ·)) (rs.filter (!·.isToken)) :=
  List.rel_filter (fun t r htr => by dsimp only; rw [(hR t r htr).isMark_eq]) h

theorem assemble_eq_error {r : Reduced} (h : ¬ ∃ params, r = .input params)
    (items : List Reduced) : Architecture.assemble (r :: items) = .error .order := by
  unfold Architecture.assemble
  split
  · next heq => cases heq
  · next heq => exact absurd ⟨_, (List.cons.inj heq).1⟩ h
  · rfl

theorem decides_ann (h : List.Forall₂ Contributes cs rs) : Decides .ann cs rs := by
  have hparts := forall₂_filter_marks (fun _ _ => id) h
  have haccepts : Accepts .ann cs ↔ ∃ input rest, cs.filter (!isMark ·) = input :: rest ∧
      input.kind? = some .inputLayer ∧ Ends rest := by
    constructor
    · rintro ⟨input, hidden, output, hcs, hinput, hends⟩
      exact ⟨input, _, hcs, hinput, hidden, output, rfl, hends⟩
    · rintro ⟨input, _, hcs, hinput, hidden, output, rfl, hends⟩
      exact ⟨input, hidden, output, hcs, hinput, hends⟩
  rw [Decides, haccepts, Architecture.combine, wanted]
  generalize cs.filter (!isMark ·) = parts, rs.filter (!·.isToken) = items at hparts
  rcases hparts with _ | ⟨hfirst, hrest⟩
  · exact .inr ⟨by simp, rfl⟩
  · rename_i first r rest items
    by_cases hinput : first.kind? = some .inputLayer
    · obtain ⟨params, rfl⟩ := hfirst.input_iff.1 hinput
      have hbeq : (first.kind? == some .inputLayer) = true := beq_iff_eq.2 hinput
      rw [Architecture.assemble]
      dsimp only
      rw [hbeq, Bool.true_and]
      rcases hiddenAndOutput_cases hrest with ⟨hends, layers, output, hok⟩ | ⟨hends, herr⟩
      · exact .inl ⟨⟨first, rest, rfl, hinput, hends⟩, _, by rw [hok], .architecture⟩
      · refine .inr ⟨?_, by rw [herr]⟩
        rintro ⟨_, _, hcons, -, hends'⟩
        obtain ⟨rfl, rfl⟩ := List.cons.inj hcons
        exact hends hends'
    · refine .inr ⟨?_, ?_⟩
      · rintro ⟨_, _, hcons, hinput', -⟩
        obtain ⟨rfl, rfl⟩ := List.cons.inj hcons
        exact hinput hinput'
      · have hbeq : (first.kind? == some .inputLayer) = false := beq_eq_false_iff_ne.2 hinput
        rw [hfirst.input_iff] at hinput
        dsimp only
        rw [hbeq, Bool.false_and, if_neg Bool.false_ne_true]
        rw [assemble_eq_error hinput]

/-- Every rule decides by the classes of the children alone. -/
theorem combine_decides (kind : NodeKind) (h : List.Forall₂ Contributes cs rs) :
    Decides kind cs rs := by
  cases kind with
  | ann => exact decides_ann h
  | inputLayer => exact .inl ⟨trivial, _, rfl, .input⟩
  | outputLayer => exact .inl ⟨trivial, _, rfl, .output⟩
  | hiddenLayer => exact decides_hiddenLayer h
  | dilationList => exact decides_dilationList h
  | layerType | activationFn | kernelInitializer => exact decides_wrapper rfl h
  | layerParam | inputParam | outputParam => exact decides_assignment rfl h

end NeuralArch.Meaning
