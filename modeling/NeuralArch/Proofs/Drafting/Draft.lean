import NeuralArch.Architecture.OfTree
import NeuralArch.Proofs.Lexing.Longest
import NeuralArch.Proofs.Lexing.Spacing
import NeuralArch.Proofs.Wording.Description

/-!
# Drafts

A description before it is written: assignments of values to names, block by
block.  By its type a draft can be written: a block holds only names that it
admits, and a name has a value of its shape.  It may still assign a name twice,
and its integers may be too large for 64 bits.

* `IntegerText`, `FloatText` — numbers as they are written.
* `Value`, `Assignment`, `Draft`, `Draft.words` — drafts and their words.
* `Means` — the architecture that a draft stands for.
* `Oversized` — the words that keep it from having one.
* `Interprets` — what is to come of a layout of the draft.
-/

namespace NeuralArch.Drafting

open Token Lexing

/-! ## Numbers -/

/-- The text of an integer: digits, perhaps behind a minus. -/
structure IntegerText where
  negative : Bool
  digits : List Char
  digits_isDigits : Number.isDigits digits = true

namespace IntegerText

def word (t : IntegerText) : String :=
  String.ofList (if t.negative then '-' :: t.digits else t.digits)

/-- The integer that is written. -/
def value (t : IntegerText) : Int :=
  if t.negative then -(Number.natOfDigits t.digits : Int) else Number.natOfDigits t.digits

/-- 64 bits hold the integer. -/
def InRange (t : IntegerText) : Prop := -2 ^ 63 ≤ t.value ∧ t.value < 2 ^ 63

theorem word_mem_integer (t : IntegerText) : t.word.toList ∈ integer := by
  rw [mem_integer_iff]
  refine ⟨t.digits, t.digits_isDigits, ?_⟩
  cases h : t.negative <;> simp [word, h]

/-- Every integer has such a text. -/
theorem exists_word_eq {w : String} (h : w.toList ∈ integer) : ∃ t : IntegerText, t.word = w := by
  obtain ⟨ds, hds, hw | hw⟩ := mem_integer_iff.1 h
  · exact ⟨⟨false, ds, hds⟩, String.toList_inj.1 (by simp [word, hw])⟩
  · exact ⟨⟨true, ds, hds⟩, String.toList_inj.1 (by simp [word, hw])⟩

theorem readInt?_word (t : IntegerText) : Number.readInt? t.word.toList = some t.value := by
  have hsplit : Number.splitSign t.word.toList = (t.negative, t.digits) := by
    have hdigits := splitSign_digits t.digits_isDigits []
    rw [List.append_nil] at hdigits
    cases h : t.negative with
    | false => simpa [word, h] using hdigits
    | true => simpa [word, h] using splitSign_minus t.digits
  rw [Number.readInt?, hsplit]
  dsimp only
  rw [if_pos t.digits_isDigits, value]

/-- An integer is read if 64 bits hold it, as what it is. -/
theorem readInt64?_word_eq_some_iff (t : IntegerText) {i : Int64} :
    Number.readInt64? t.word = some i ↔ t.InRange ∧ i.toInt = t.value := by
  have hleast : Number.leastInteger = -2 ^ 63 := by decide
  rw [Number.readInt64?, readInt?_word, Option.bind_some, InRange]
  constructor
  · intro h
    obtain ⟨hvalue, hmin, hmax⟩ := toInt_of_toInt64? h
    rw [hleast] at hmin hmax
    exact ⟨⟨hmin, by omega⟩, hvalue⟩
  · rintro ⟨⟨hmin, hmax⟩, hvalue⟩
    rw [Number.toInt64?, if_pos (by rw [hleast]; omega), ← hvalue, Int64.ofInt_toInt]

theorem isSome_readInt64?_word_iff (t : IntegerText) :
    (Number.readInt64? t.word).isSome = true ↔ t.InRange := by
  constructor
  · intro h
    obtain ⟨i, hi⟩ := Option.isSome_iff_exists.1 h
    exact (t.readInt64?_word_eq_some_iff.1 hi).1
  · intro h
    have hvalue : (Int64.ofInt t.value).toInt = t.value :=
      Int64.toInt_ofInt_of_le h.1 h.2
    rw [t.readInt64?_word_eq_some_iff.2 ⟨h, hvalue⟩]
    rfl

end IntegerText

/-- A word that is an integer, but none of 64 bits. -/
def Oversized (word : String) : Prop := ∃ t : IntegerText, t.word = word ∧ ¬ t.InRange

/-- The text of a float. -/
structure FloatText where
  word : String
  word_mem_float : word.toList ∈ float

/-! ## Drafts -/

/-- The values of a shape. -/
inductive Value : ValueShape → Type
  | int (t : IntegerText) : Value .number
  | float (t : FloatText) : Value .number
  | activation (f : Activation) : Value .activation
  | initializer (i : Initializer) : Value .initializer
  | padding (m : PaddingMode) : Value .padding
  | poolType (t : PoolType) : Value .poolType
  | dilations (first : IntegerText) (rest : List IntegerText) : Value .dilationList

def Value.words : {s : ValueShape} → Value s → List String
  | _, int t => [t.word]
  | _, float t => [t.word]
  | _, activation f => [f.word]
  | _, initializer i => [i.word]
  | _, padding m => [m.word]
  | _, poolType t => [t.word]
  | _, dilations first rest =>
    "[" :: first.word :: (Wording.moreItems (rest.map IntegerText.word) ++ ["]"])

/-- A name that may stand in a block, with a value of its shape. -/
structure Assignment (b : Block) where
  name : ParamName
  admitted : b.admits name = true
  value : Value name.shape

def Assignment.wording {b : Block} (a : Assignment b) : Wording.Assignment :=
  ⟨a.name, a.value.words⟩

structure HiddenLayer where
  type : LayerType
  params : List (Assignment .hidden)

def HiddenLayer.wording (l : HiddenLayer) : Wording.HiddenLayer :=
  ⟨l.type, l.params.map Assignment.wording⟩

/-- A description by its assignments, block by block. -/
structure Draft where
  input : List (Assignment .input)
  layers : List HiddenLayer
  output : List (Assignment .output)

def Draft.wording (d : Draft) : Wording.Description :=
  ⟨d.input.map Assignment.wording, d.layers.map HiddenLayer.wording,
    d.output.map Assignment.wording⟩

/-- The words of a draft, in the order in which they are written. -/
def Draft.words (d : Draft) : List String := d.wording.words

/-! ## What drafts mean -/

/-- The native value of a value. -/
inductive Value.Denotes : {s : ValueShape} → Value s → ParamValue → Prop
  | int {t : IntegerText} {i : Int64} (h : i.toInt = t.value) : Denotes (.int t) (.int i)
  | float {t : FloatText} {x : Float} (h : Number.readFloat? t.word = some x) :
      Denotes (.float t) (.float x)
  | activation {f : Activation} : Denotes (.activation f) (.text f.word)
  | initializer {i : Initializer} : Denotes (.initializer i) (.text i.word)
  | padding {m : PaddingMode} : Denotes (.padding m) (.text m.word)
  | poolType {t : PoolType} : Denotes (.poolType t) (.text t.word)
  | dilations {first : IntegerText} {rest : List IntegerText} {is : List Int64}
      (h : List.Forall₂ (fun t i => i.toInt = t.value) (first :: rest) is) :
      Denotes (.dilations first rest) (.list is)

/-- A map holds what is assigned in a block: for each name the value of its last assignment, and
no other names. -/
structure Holds {b : Block} (params : List (Assignment b)) (m : ParamMap) : Prop where
  last : ∀ before a after, params = before ++ a :: after → (∀ c ∈ after, c.name ≠ a.name) →
    ∃ v, m[a.name.word]? = some v ∧ a.value.Denotes v
  only : ∀ name ∈ m, ∃ a ∈ params, a.name.word = name

/-- An architecture is that of a draft. -/
structure Means (d : Draft) (a : Architecture) : Prop where
  input : Holds d.input a.input
  hidden : List.Forall₂ (fun l layer => layer.type = l.type.word ∧ Holds l.params layer.params)
    d.layers a.hidden
  output : Holds d.output a.output

/-- What comes of the words of a draft at their places: the architecture of the draft if 64 bits
hold all its integers, and otherwise an error at the first that they do not hold. -/
inductive Interprets (d : Draft) (placed : List (String × Position)) :
    Except InterpretError Architecture → Prop
  | ok {a : Architecture} (hfits : ∀ w ∈ d.words, ¬ Oversized w) (hmeans : Means d a) :
      Interprets d placed (.ok a)
  | error {before after : List (String × Position)} {w : String} {p : Position}
      (hplaced : placed = before ++ (w, p) :: after) (hbefore : ∀ b ∈ before, ¬ Oversized b.1)
      (hw : Oversized w) : Interprets d placed (.error (.badNumber w p))

end NeuralArch.Drafting
