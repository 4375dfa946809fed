import ShiftReduce.Engine.Run
import ShiftReduce.Text.Quoted

/-! # All that is in a tree or a parser

- `Tree.detail`: a tree with its tokens and its quoted labels.
- `Configuration.detail`: both stacks of an engine, from the bottom.
-/

namespace ShiftReduce

namespace Tree

variable {τ : Type}

mutual

def detail (showToken : τ → String) : Tree τ → String
  | .leaf a => "Leaf(" ++ showToken a ++ ")"
  | .node s ts =>
      s!"Node \x7b symbol: {Text.quote s}, children: " ++
      Text.bracketed (forestDetails showToken ts) ++ " \x7d"

def forestDetails (showToken : τ → String) : List (Tree τ) → List String
  | [] => []
  | t :: ts => detail showToken t :: forestDetails showToken ts

end

end Tree

def Configuration.detail {σ τ : Type} (showState : σ → String) (showToken : τ → String)
    (c : Configuration σ τ) : String :=
  let states := Text.bracketed (c.states.reverse.map showState)
  let nodes := Text.bracketed (c.nodes.reverse.map (Tree.detail showToken))
  s!"Parser \x7b state_stack: {states}, node_stack: {nodes}, .. \x7d"

end ShiftReduce
