import ShiftReduce.Engine.Run

/-! # What an engine tells about its run

- `ParseEvent`: a shift, a reduction, the acceptance or the rejection.
- `Configuration.event?`: what is told about the next step.
- `Configuration.events`: what is told about a number of steps.
-/

namespace ShiftReduce

inductive ParseEvent (σ τ : Type) where
  | shifted (token : τ) (next : σ)
  | reduced (symbol : String) (length : Nat) (next : σ)
  | accepted
  | rejected (states : List σ) (lookahead : Option τ)
deriving DecidableEq, Repr

def ParseEvent.message {σ τ : Type} (showState : σ → String) (showToken : τ → String) :
    ParseEvent σ τ → String
  | .shifted token next => s!"shift {showToken token} -> {showState next}"
  | .reduced symbol length next =>
      s!"reduce {symbol} ({length} nodes), goto {showState next}"
  | .accepted => "accepted"
  | .rejected states lookahead =>
      let stack := Text.bracketed (states.map showState)
      let token :=
        match lookahead with
        | some token => "Some(" ++ showToken token ++ ")"
        | none => "None"
      s!"syntax error: states={stack}, lookahead={token}"

namespace Configuration

variable {σ ν τ : Type}

/-- A reduction is told once its goto is known, even if it is then refused. -/
def reduceEvent? (t : ParseTable σ ν) (c : Configuration σ τ) (symbol : ν) (length : Nat) :
    Option (ParseEvent σ τ) :=
  match c.uncover length with
  | none => none
  | some (_, _, top, _) =>
      (t.goto top symbol).map fun next => .reduced (t.symbolName symbol) length next

variable [Token τ]

def event? (t : ParseTable σ ν) (c : Configuration σ τ) : Option (ParseEvent σ τ) :=
  match c.states with
  | [] => none
  | current :: _ =>
      match t.action current c.lookahead with
      | .shift next => c.input.head?.map fun token => .shifted token next
      | .reduce symbol length => c.reduceEvent? t symbol length
      | .accept => some .accepted
      | .error => some (.rejected c.states.reverse c.input.head?)

variable [BEq σ]

def events (t : ParseTable σ ν) : (steps : Nat) → Configuration σ τ → List (ParseEvent σ τ)
  | 0, _ => []
  | n + 1, c =>
      (c.event? t).toList ++
      match c.step t with
      | .halt _ => []
      | .next c => events t n c

end Configuration

end ShiftReduce
