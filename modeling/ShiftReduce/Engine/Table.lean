/-! # Tables of a shift-reduce engine

- `ParseAction`: what an engine does in a state on a lookahead.
- `ParseTable`: any functions that tell it what to do; `none` stands for the end
  of the input.
-/

namespace ShiftReduce

inductive ParseAction (σ ν : Type) where
  | shift (next : σ)
  /-- The topmost `length` entries become one node for `symbol`. -/
  | reduce (symbol : ν) (length : Nat)
  | accept
  | error
deriving DecidableEq, Repr

structure ParseTable (σ ν : Type) where
  initialState : σ
  action : σ → Option String → ParseAction σ ν
  goto : σ → ν → Option σ
  symbolName : ν → String

end ShiftReduce
