import Std.Data.ExtTreeMap

/-!
# Grammars

A grammar gives each of its symbols a list of alternatives, the symbol's
*rule*; an alternative is a *production*, a list of elements. A production
that refers to its own symbol is self-recursive, and a rule keeps the indices
of those that are not, since an expansion falls back on them.

* `Element.ofToken`, `Production.ofTokens` — elements and productions from
  the tokens they are written with.
* `Rule.push` — one more alternative.
* `Grammar.push`, `Grammar.add` — one more alternative for a symbol; the first
  symbol that gets one is where expansions start.

Symbols have rules only through `push`, so a rule in a grammar has an
alternative.
-/

namespace NeuralArch

/-- What an alternative is made of. -/
inductive Element
  /-- Text that is written as it is. -/
  | literal (text : String)
  /-- A name that stands for itself, or for a value that is filled in. -/
  | terminal (name : String)
  /-- The alternatives of a symbol. -/
  | symbol (name : String)
deriving DecidableEq, Repr

namespace Element

/-- What stands between two given characters at the ends of a token. -/
def inside? (first last : Char) : List Char → Option (List Char)
  | [] => none
  | c :: cs => if c = first ∧ cs.getLast? = some last then some cs.dropLast else none

/-- The element a token is written for: angle brackets hold a symbol, quotes of either kind a
literal; everything else is a terminal. -/
def ofToken (token : String) : Element :=
  match inside? '<' '>' token.toList with
  | some name => symbol (String.ofList name)
  | none =>
    match inside? '"' '"' token.toList with
    | some text => literal (String.ofList text)
    | none =>
      match inside? '\'' '\'' token.toList with
      | some text => literal (String.ofList text)
      | none => terminal token

/-- Whether an element refers to a symbol. -/
def refersTo (e : Element) (name : String) : Bool := e == symbol name

end Element

/-- An alternative of a symbol. -/
structure Production where
  elements : List Element
  /-- Whether an element refers to the symbol whose alternative this is. -/
  selfRecursive : Bool
deriving DecidableEq, Repr

namespace Production

/-- The alternative of a symbol that consists of the given elements. -/
def ofElements (name : String) (elements : List Element) : Production :=
  ⟨elements, elements.any (·.refersTo name)⟩

/-- The token that stands for nothing. It makes an alternative without elements writable. -/
def emptyMarker : String := "<<empty>>"

/-- The alternative of a symbol that is written with the given tokens. -/
def ofTokens (name : String) (tokens : List String) : Production :=
  ofElements name ((tokens.filter (· != emptyMarker)).map Element.ofToken)

def isEmpty (p : Production) : Bool := p.elements.isEmpty

/-- The parameter that an alternative assigns: it begins with the parameter's name and an
equals sign. -/
def paramName? (p : Production) : Option String :=
  match p.elements with
  | .literal name :: .literal "=" :: _ => some name
  | _ => none

end Production

/-- The alternatives of a symbol. -/
structure Rule where
  productions : List Production
  /-- The indices of the productions that are not self-recursive, in ascending order. -/
  nonRecursive : List Nat
deriving DecidableEq, Repr

namespace Rule

def empty : Rule := ⟨[], []⟩

/-- Adds an alternative behind the others. -/
def push (r : Rule) (p : Production) : Rule where
  productions := r.productions ++ [p]
  nonRecursive :=
    if p.selfRecursive then r.nonRecursive else r.nonRecursive ++ [r.productions.length]

/-- Whether some alternative is self-recursive. -/
def isRecursive (r : Rule) : Bool := r.nonRecursive.length != r.productions.length

end Rule

/-- Rules by symbol, and the symbol that expansions start from. -/
structure Grammar where
  rules : Std.ExtTreeMap String Rule
  start : Option String
deriving DecidableEq

/-- Why something cannot be done with a grammar. -/
inductive GrammarError
  /-- A symbol has no rule. -/
  | unknownSymbol (symbol : String)
  /-- An alternative has no tokens. One without elements is written with the token that stands
  for nothing. -/
  | emptyProduction (symbol : String)
deriving DecidableEq, Repr

def GrammarError.message : GrammarError → String
  | unknownSymbol symbol => "Unknown non-terminal: " ++ symbol
  | emptyProduction symbol => "Empty production for: " ++ symbol

namespace Grammar

def empty : Grammar := ⟨∅, none⟩

instance : Inhabited Grammar := ⟨empty⟩

/-- The rule of a symbol. -/
def rule? (g : Grammar) (symbol : String) : Option Rule := g.rules[symbol]?

/-- The rule of a symbol that has one. -/
def rule (g : Grammar) (symbol : String) : Except GrammarError Rule :=
  match g.rule? symbol with
  | some r => .ok r
  | none => .error (.unknownSymbol symbol)

/-- Whether a symbol has a rule. -/
def has (g : Grammar) (symbol : String) : Bool := g.rules.contains symbol

/-- Whether no symbol has a rule. -/
def isEmpty (g : Grammar) : Bool := g.rules.isEmpty

/-- Adds an alternative to a symbol's rule. -/
def push (g : Grammar) (symbol : String) (tokens : List String) : Grammar where
  rules :=
    g.rules.insert symbol
      (((g.rule? symbol).getD Rule.empty).push (Production.ofTokens symbol tokens))
  start := g.start.or (some symbol)

/-- Adds an alternative that has tokens. -/
def add (g : Grammar) (symbol : String) (tokens : List String) : Except GrammarError Grammar :=
  if tokens.isEmpty then .error (.emptyProduction symbol) else .ok (g.push symbol tokens)

/-- Forgets a symbol's rule. The start symbol stays. -/
def discard (g : Grammar) (symbol : String) : Grammar := { g with rules := g.rules.erase symbol }

/-- Gives a symbol new alternatives in place of those it has. Without any, nothing changes. -/
def define (g : Grammar) (symbol : String) (alternatives : List (List String)) : Grammar :=
  if alternatives.isEmpty then g
  else alternatives.foldl (fun g tokens => g.push symbol tokens) (g.discard symbol)

/-- The grammar of a list of alternatives, each with its symbol. Those without tokens are
passed over. -/
def ofAlternatives (alternatives : List (String × List String)) : Grammar :=
  alternatives.foldl
    (fun g (symbol, tokens) => match g.add symbol tokens with
      | .ok g => g
      | .error _ => g)
    empty

/-! ## What a change changes -/

@[simp] theorem rule?_empty (s : String) : empty.rule? s = none := by
  simp [empty, rule?]

theorem rule?_push (g : Grammar) (s t : String) (tokens : List String) :
    (g.push s tokens).rule? t =
      if s = t then
        some (((g.rule? s).getD Rule.empty).push (Production.ofTokens s tokens))
      else g.rule? t := by
  simp [push, rule?, Std.ExtTreeMap.getElem?_insert, Std.LawfulEqCmp.compare_eq_iff_eq]

theorem rule?_discard (g : Grammar) (s t : String) :
    (g.discard s).rule? t = if s = t then none else g.rule? t := by
  simp [discard, rule?, Std.ExtTreeMap.getElem?_erase, Std.LawfulEqCmp.compare_eq_iff_eq]

end Grammar

end NeuralArch
