import ShiftReduce.Engine.Run

/-! # An engine without the guard

`Configuration.reduce` refuses a reduction of one tree that leads back to the state which it left.
Here is the engine that carries it out.

- `Configuration.reduceUnguarded`, `stepUnguarded`, `runUnguarded`: each reduction whose goto is
  known is made.
- `ParseTable.parseUnguarded?`: the result of parsing without the guard.
-/

namespace ShiftReduce

namespace Configuration

variable {σ ν τ : Type}

/-- Makes one node of the topmost `length` trees, wherever that leads. -/
def reduceUnguarded (t : ParseTable σ ν) (c : Configuration σ τ) (symbol : ν) (length : Nat) :
    Step σ τ :=
  match c.uncover length with
  | none => .halt (.error .inconsistentStack)
  | some (children, nodes, top, below) =>
      let name := t.symbolName symbol
      match t.goto top symbol with
      | none => .halt (.error (.missingGoto top name))
      | some next => .next ⟨next :: top :: below, .node name children :: nodes, c.input⟩

variable [Token τ]

def stepUnguarded (t : ParseTable σ ν) (c : Configuration σ τ) : Step σ τ :=
  match c.states with
  | [] => .halt (.error .inconsistentStack)
  | current :: _ =>
      match t.action current c.lookahead with
      | .shift next => c.shift next
      | .reduce symbol length => c.reduceUnguarded t symbol length
      | .accept => c.accept
      | .error => .halt (.error c.rejection)

def runUnguarded (t : ParseTable σ ν) : (steps : Nat) → Configuration σ τ → Run σ τ
  | 0, c => .running c
  | n + 1, c =>
      match c.stepUnguarded t with
      | .halt result => .halted result
      | .next c => runUnguarded t n c

end Configuration

/-- The result of parsing without the guard, if the engine halts within `steps` actions. -/
def ParseTable.parseUnguarded? {σ ν τ : Type} [Token τ] (t : ParseTable σ ν) (steps : Nat)
    (input : List τ) : Option (ParseResult σ τ) :=
  match (Configuration.initial t input).runUnguarded t steps with
  | .halted result => some result
  | .running _ => none

end ShiftReduce
