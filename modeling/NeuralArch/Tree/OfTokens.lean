import NeuralArch.Tree
import NeuralArch.Token.Lexer

/-!
# From tokens to a tree

The language of descriptions, by recursive descent:

    description  neuralnet { input-block hidden-block* output-block }
    block        keyword { parameter* }
    parameter    name = value ;

The name decides the form of the value (`ParamName.shape`) and the block
decides which names it admits (`Block.admits`). A reader takes what it reads
from the front of a list of tokens, or reports the first token that does not
fit. When the tokens run out, the error stands at the end of the text, which
is handed down as `fin`.

* `Tree.ofTokens` — a list of tokens to a tree, with nothing left over.
* `Tree.ofText` — a text to a tree; a character that begins no token is
  reported before any token that does not fit.
* `length_param`, `length_hiddenBlock` — what may be repeated takes at least
  one token, so repetition ends.
-/

namespace NeuralArch.Tree

open Token SyntaxError

/-- Reads from the front of a list of tokens. -/
abbrev Reader := StateT (List Token) (Except SyntaxError)

namespace Reader

theorem pure_apply {α : Type} (a : α) (ts : List Token) :
    (pure a : Reader α) ts = .ok (a, ts) := rfl

theorem bind_apply {α β : Type} (x : Reader α) (f : α → Reader β) (ts : List Token) :
    (x >>= f) ts = (x ts).bind fun r => f r.1 r.2 := rfl

/-- Reading one thing after another succeeds when both do, the second on what the first
left. -/
theorem bind_eq_ok {α β : Type} {x : Reader α} {f : α → Reader β} {ts us : List Token} {b : β} :
    (x >>= f) ts = .ok (b, us) ↔ ∃ a vs, x ts = .ok (a, vs) ∧ f a vs = .ok (b, us) := by
  rw [bind_apply]
  match x ts with
  | .error _ => simp [Except.bind]
  | .ok (a, vs) =>
    simp only [Except.bind, Except.ok.injEq, Prod.mk.injEq]
    exact ⟨fun h => ⟨a, vs, ⟨rfl, rfl⟩, h⟩, fun ⟨_, _, ⟨rfl, rfl⟩, h⟩ => h⟩

theorem pure_eq_ok {α : Type} {a b : α} {ts us : List Token} :
    (pure a : Reader α) ts = .ok (b, us) ↔ a = b ∧ ts = us := by
  rw [pure_apply, Except.ok.injEq, Prod.mk.injEq]

end Reader

/-! ## Single tokens -/

/-- The error of a place where something else is expected. -/
def refuse (fin : Position) (e : Expected) : List Token → SyntaxError
  | [] => ⟨.unexpected e none, fin⟩
  | t :: _ => ⟨.unexpected e (some t.value), t.pos⟩

/-- Reads one token of an accepted kind. -/
def one (fin : Position) (e : Expected) (accept : Kind → Bool) : Reader Token
  | [] => .error (refuse fin e [])
  | t :: ts => if accept t.kind then .ok (t, ts) else .error (refuse fin e (t :: ts))

/-- Reads one token of one kind. -/
def mark (fin : Position) (e : Expected) (k : Kind) : Reader Tree := do
  let t ← one fin e (· == k)
  return leaf t

theorem length_one {fin : Position} {e : Expected} {accept : Kind → Bool} {ts us : List Token}
    {t : Token} (h : one fin e accept ts = .ok (t, us)) : us.length < ts.length := by
  match ts with
  | [] => simp [one] at h
  | t' :: ts =>
    rw [one] at h
    split at h
    · simp only [Except.ok.injEq, Prod.mk.injEq] at h
      simp [h.2]
    · simp at h

theorem length_mark {fin : Position} {e : Expected} {k : Kind} {ts us : List Token} {t : Tree}
    (h : mark fin e k ts = .ok (t, us)) : us.length < ts.length := by
  obtain ⟨_, _, h, hp⟩ := Reader.bind_eq_ok.1 h
  rw [← (Reader.pure_eq_ok.1 hp).2]
  exact length_one h

/-! ## Values -/

/-- Reads what follows the first item of a dilation list: commas with an integer each, and
the closing bracket. -/
def dilationItems (fin : Position) : Reader (List Tree)
  | [] => .error (refuse fin .commaOrBracket [])
  | t :: ts =>
    if t.kind = .comma then
      match ts with
      | [] => .error (refuse fin .integer [])
      | n :: us =>
        if n.kind = .int then
          match dilationItems fin us with
          | .error e => .error e
          | .ok (items, vs) => .ok (leaf t :: leaf n :: items, vs)
        else .error (refuse fin .integer (n :: us))
    else if t.kind = .rsqb then .ok ([leaf t], ts)
    else .error (refuse fin .commaOrBracket (t :: ts))

/-- Reads `[ INT (, INT)* ]`. -/
def dilationList (fin : Position) : Reader Tree := do
  let lsqb ← mark fin .openBracket .lsqb
  let first ← mark fin .integer .int
  let items ← dilationItems fin
  return node .dilationList (lsqb :: first :: items)

/-- Reads a value of the given shape. Activations and initializers have a node of their own
around their token. -/
def value (fin : Position) : ValueShape → Reader Tree
  | .number => do
    let t ← one fin .number Kind.isNumber
    return leaf t
  | .padding => do
    let t ← one fin .padding Kind.isPadding
    return leaf t
  | .poolType => do
    let t ← one fin .poolType Kind.isPoolType
    return leaf t
  | .activation => do
    let t ← one fin .activation Kind.isActivation
    return node .activationFn [leaf t]
  | .initializer => do
    let t ← one fin .initializer Kind.isInitializer
    return node .kernelInitializer [leaf t]
  | .dilationList => dilationList fin

/-! ## Parameters -/

/-- The kind of a parameter's node, by its block. -/
def paramKind : Block → NodeKind
  | .input => .inputParam
  | .hidden => .layerParam
  | .output => .outputParam

/-- Reads `name = value ;`. -/
def param (fin : Position) (b : Block) : Reader Tree := do
  let name ← one fin (.paramName b) fun k => k.param?.any b.admits
  let equals ← mark fin .equals .equal
  let v ← value fin (name.kind.shape?.getD .number)
  let semicolon ← mark fin .semicolon .semicolon
  return node (paramKind b) [leaf name, equals, v, semicolon]

/-- Whether the next token names a parameter, of whatever block. -/
def startsParam (ts : List Token) : Bool := ts.head?.any (·.kind.param?.isSome)

theorem length_dilationItems {fin : Position} {ts us : List Token} {items : List Tree}
    (h : dilationItems fin ts = .ok (items, us)) : us.length ≤ ts.length := by
  fun_induction dilationItems fin ts generalizing items with
  | case1 => simp at h
  | case2 => simp at h
  | case3 => simp_all
  | case4 t _ n ts' _ items' vs hvs ih =>
    simp only [Except.ok.injEq, Prod.mk.injEq] at h
    obtain ⟨-, rfl⟩ := h
    have := ih hvs
    simp only [List.length_cons]
    omega
  | case5 => simp at h
  | case6 =>
    simp only [Except.ok.injEq, Prod.mk.injEq] at h
    simp [h.2]
  | case7 => simp at h

theorem length_value {fin : Position} {s : ValueShape} {ts us : List Token} {t : Tree}
    (h : value fin s ts = .ok (t, us)) : us.length ≤ ts.length := by
  have wrapped : ∀ {f : Token → Tree} {e : Expected} {accept : Kind → Bool},
      (do let t ← one fin e accept; return f t : Reader Tree) ts = .ok (t, us) →
      us.length ≤ ts.length := by
    intro f e accept h
    obtain ⟨_, _, h, hp⟩ := Reader.bind_eq_ok.1 h
    rw [← (Reader.pure_eq_ok.1 hp).2]
    exact Nat.le_of_lt (length_one h)
  match s with
  | .number | .padding | .poolType | .activation | .initializer => exact wrapped h
  | .dilationList =>
    obtain ⟨_, _, h1, h⟩ := Reader.bind_eq_ok.1 h
    obtain ⟨_, _, h2, h⟩ := Reader.bind_eq_ok.1 h
    obtain ⟨_, _, h3, h⟩ := Reader.bind_eq_ok.1 h
    rw [← (Reader.pure_eq_ok.1 h).2]
    have := length_mark h1
    have := length_mark h2
    have := length_dilationItems h3
    omega

/-- A parameter takes at least one token. -/
theorem length_param {fin : Position} {b : Block} {ts us : List Token} {t : Tree}
    (h : param fin b ts = .ok (t, us)) : us.length < ts.length := by
  obtain ⟨_, _, h1, h⟩ := Reader.bind_eq_ok.1 h
  obtain ⟨_, _, h2, h⟩ := Reader.bind_eq_ok.1 h
  obtain ⟨_, _, h3, h⟩ := Reader.bind_eq_ok.1 h
  obtain ⟨_, _, h4, h⟩ := Reader.bind_eq_ok.1 h
  rw [← (Reader.pure_eq_ok.1 h).2]
  have := length_one h1
  have := length_mark h2
  have := length_value h3
  have := length_mark h4
  omega

/-- Reads parameters as long as the next token names one. -/
def params (fin : Position) (b : Block) (ts : List Token) :
    Except SyntaxError (List Tree × List Token) :=
  if startsParam ts then
    match h : param fin b ts with
    | .error e => .error e
    | .ok (first, us) =>
      have : us.length < ts.length := length_param h
      match params fin b us with
      | .error e => .error e
      | .ok (rest, vs) => .ok (first :: rest, vs)
  else .ok ([], ts)
termination_by ts.length

theorem length_params {fin : Position} {b : Block} {ts us : List Token} {ps : List Tree}
    (h : params fin b ts = .ok (ps, us)) : us.length ≤ ts.length := by
  fun_induction params fin b ts generalizing ps with
  | case1 => simp at h
  | case2 => simp_all
  | case3 ts _ first us' _ hlt rest vs hvs ih =>
    simp only [Except.ok.injEq, Prod.mk.injEq] at h
    obtain ⟨-, rfl⟩ := h
    have := ih hvs
    omega
  | case4 =>
    simp only [Except.ok.injEq, Prod.mk.injEq] at h
    simp [h.2]

/-! ## Blocks -/

/-- Reads the input or the output block: its keyword, and its parameters in braces. -/
def endBlock (fin : Position) (e : Expected) (keyword : Kind) (kind : NodeKind) (b : Block) :
    Reader Tree := do
  let word ← mark fin e keyword
  let lbrace ← mark fin .openBrace .lbrace
  let ps ← params fin b
  let rbrace ← mark fin .paramOrClose .rbrace
  return node kind ([word, lbrace] ++ ps ++ [rbrace])

def inputBlock (fin : Position) : Reader Tree := endBlock fin .input .input .inputLayer .input

def outputBlock (fin : Position) : Reader Tree :=
  endBlock fin .outputOrLayer .output .outputLayer .output

/-- Reads a hidden block: its layer type, and its parameters in braces. -/
def hiddenBlock (fin : Position) : Reader Tree := do
  let type ← one fin .layerType (·.layer?.isSome)
  let lbrace ← mark fin .openBrace .lbrace
  let ps ← params fin .hidden
  let rbrace ← mark fin .paramOrClose .rbrace
  return node .hiddenLayer ([node .layerType [leaf type], lbrace] ++ ps ++ [rbrace])

/-- Whether the next token names a layer type. -/
def startsLayer (ts : List Token) : Bool := ts.head?.any (·.kind.layer?.isSome)

/-- A hidden block takes at least one token. -/
theorem length_hiddenBlock {fin : Position} {ts us : List Token} {t : Tree}
    (h : hiddenBlock fin ts = .ok (t, us)) : us.length < ts.length := by
  obtain ⟨_, _, h1, h⟩ := Reader.bind_eq_ok.1 h
  obtain ⟨_, _, h2, h⟩ := Reader.bind_eq_ok.1 h
  obtain ⟨_, _, h3, h⟩ := Reader.bind_eq_ok.1 h
  obtain ⟨_, _, h4, h⟩ := Reader.bind_eq_ok.1 h
  rw [← (Reader.pure_eq_ok.1 h).2]
  have := length_one h1
  have := length_mark h2
  have := length_params h3
  have := length_mark h4
  omega

/-- Reads hidden blocks as long as the next token names a layer type. -/
def hiddenBlocks (fin : Position) (ts : List Token) :
    Except SyntaxError (List Tree × List Token) :=
  if startsLayer ts then
    match h : hiddenBlock fin ts with
    | .error e => .error e
    | .ok (first, us) =>
      have : us.length < ts.length := length_hiddenBlock h
      match hiddenBlocks fin us with
      | .error e => .error e
      | .ok (rest, vs) => .ok (first :: rest, vs)
  else .ok ([], ts)
termination_by ts.length

/-- Reads a description. -/
def description (fin : Position) : Reader Tree := do
  let neuralnet ← mark fin .neuralnet .neuralnet
  let lbrace ← mark fin .openBrace .lbrace
  let input ← inputBlock fin
  let hidden ← hiddenBlocks fin
  let output ← outputBlock fin
  let rbrace ← mark fin .closeBrace .rbrace
  return node .ann ([neuralnet, lbrace, input] ++ hidden ++ [output, rbrace])

/-! ## Whole texts -/

/-- The tree of a list of tokens whose text ends at `fin`. -/
def ofTokens (fin : Position) (ts : List Token) : Except SyntaxError Tree :=
  match description fin ts with
  | .error e => .error e
  | .ok (t, []) => .ok t
  | .ok (_, extra :: us) => .error (refuse fin .endOfInput (extra :: us))

/-- The tree of a text. -/
def ofText (text : String) : Except SyntaxError Tree := do
  let ts ← Token.ofText text
  ofTokens (Position.start.after text.toList) ts

end NeuralArch.Tree
