import NeuralArch.Token

/-!
# Concrete trees

A description's tree keeps every token: a leaf is a token, an inner node has
a kind and children. Nothing here says which trees are well formed; a tree
may come from elsewhere, and every function below takes any tree.

* `Tree.tokens` — the leaves, from left to right.
* `Tree.firstToken?` — the first of them (`head?_tokens`).
* `Tree.find?`, `Tree.nodesOf` — the first descendant, the direct children,
  of a kind.
-/

namespace NeuralArch

/-- The kinds of inner node. -/
inductive NodeKind
  | ann | inputLayer | outputLayer | hiddenLayer | layerType
  | layerParam | inputParam | outputParam
  | activationFn | kernelInitializer | dilationList
deriving DecidableEq, Repr

namespace NodeKind

def name : NodeKind → String
  | ann => "ann"
  | inputLayer => "input_layer"
  | outputLayer => "output_layer"
  | hiddenLayer => "hidden_layer"
  | layerType => "layer_type"
  | layerParam => "layer_param"
  | inputParam => "input_param"
  | outputParam => "output_param"
  | activationFn => "activation_fn"
  | kernelInitializer => "kernel_initializer"
  | dilationList => "dilation_list"

def all : List NodeKind :=
  [ann, inputLayer, outputLayer, hiddenLayer, layerType, layerParam, inputParam, outputParam,
   activationFn, kernelInitializer, dilationList]

theorem mem_all (k : NodeKind) : k ∈ all := by cases k <;> decide

end NodeKind

/-- A tree with tokens at its leaves. -/
inductive Tree
  | leaf (token : Token)
  | node (kind : NodeKind) (children : List Tree)
deriving Repr, Inhabited

namespace Tree

/-- The kind of an inner node. -/
def kind? : Tree → Option NodeKind
  | leaf _ => none
  | node k _ => some k

/-- The token of a leaf. -/
def token? : Tree → Option Token
  | leaf t => some t
  | node _ _ => none

def children : Tree → List Tree
  | leaf _ => []
  | node _ cs => cs

mutual

/-- The leaves of a tree, from left to right. -/
def tokens : Tree → List Token
  | leaf t => [t]
  | node _ cs => tokensOfList cs

/-- The leaves of several trees, from left to right. -/
def tokensOfList : List Tree → List Token
  | [] => []
  | t :: ts => t.tokens ++ tokensOfList ts

end

mutual

/-- The first leaf of a tree. -/
def firstToken? : Tree → Option Token
  | leaf t => some t
  | node _ cs => firstTokenOfList? cs

/-- The first leaf of several trees. -/
def firstTokenOfList? : List Tree → Option Token
  | [] => none
  | t :: ts => t.firstToken?.or (firstTokenOfList? ts)

end

mutual

/-- The first node of a kind, in depth-first order, the tree itself included. -/
def find? (k : NodeKind) : Tree → Option Tree
  | leaf _ => none
  | node k' cs => if k' = k then some (node k' cs) else findInList? k cs

/-- The first node of a kind in several trees. -/
def findInList? (k : NodeKind) : List Tree → Option Tree
  | [] => none
  | t :: ts => (t.find? k).or (findInList? k ts)

end

/-- The direct children of a kind. -/
def nodesOf (k : NodeKind) (t : Tree) : List Tree := t.children.filter (·.kind? == some k)

mutual

theorem head?_tokens : ∀ t : Tree, t.tokens.head? = t.firstToken?
  | leaf _ => by simp [tokens, firstToken?]
  | node _ cs => by rw [tokens, firstToken?, head?_tokensOfList cs]

theorem head?_tokensOfList : ∀ ts : List Tree, (tokensOfList ts).head? = firstTokenOfList? ts
  | [] => by simp [tokensOfList, firstTokenOfList?]
  | t :: ts => by
    rw [tokensOfList, firstTokenOfList?, List.head?_append, head?_tokens t,
      head?_tokensOfList ts]

end

theorem tokensOfList_append (ts us : List Tree) :
    tokensOfList (ts ++ us) = tokensOfList ts ++ tokensOfList us := by
  induction ts with
  | nil => simp [tokensOfList]
  | cons t ts ih => simp [tokensOfList, ih]

end Tree

end NeuralArch
