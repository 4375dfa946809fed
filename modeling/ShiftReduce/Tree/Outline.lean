import ShiftReduce.Tree.Basic

/-! # What can be seen of a tree

- `Tree.labels`: the labels of all nodes and leaves.
- `Tree.named`: the tree with the names of its tokens in their place.
- `Tree.outline`: the labels only; a leaf is like a node without children.
-/

namespace ShiftReduce

namespace Tree

variable {τ : Type} [Token τ]

mutual

def labels : Tree τ → List String
  | .leaf a => [Token.name a]
  | .node s ts => s :: forestLabels ts

def forestLabels : List (Tree τ) → List String
  | [] => []
  | t :: ts => labels t ++ forestLabels ts

end

mutual

def named : Tree τ → Tree String
  | .leaf a => .leaf (Token.name a)
  | .node s ts => .node s (forestNamed ts)

def forestNamed : List (Tree τ) → List (Tree String)
  | [] => []
  | t :: ts => named t :: forestNamed ts

end

mutual

def outline : Tree τ → Tree String
  | .leaf a => .node (Token.name a) []
  | .node s ts => .node s (forestOutline ts)

def forestOutline : List (Tree τ) → List (Tree String)
  | [] => []
  | t :: ts => outline t :: forestOutline ts

end

end Tree

end ShiftReduce
