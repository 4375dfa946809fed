import ShiftReduce.Engine.Error
import ShiftReduce.Engine.Table
import ShiftReduce.Tree.Basic

/-! # Runs of a shift-reduce engine

- `Configuration`: a stack of states, a stack of trees and the rest of the
  input, whose first token is the lookahead.
- `step`: one action; it looks up one entry of the table.
- `run`: as many steps as are allowed, or fewer if the engine halts.
-/

namespace ShiftReduce

/-- Both stacks are listed from the top. -/
structure Configuration (σ τ : Type) where
  states : List σ
  nodes : List (Tree τ)
  input : List τ

abbrev ParseResult (σ τ : Type) := Except (ParseError σ τ) (Tree τ)

/-- What one step leads to. -/
inductive Step (σ τ : Type) where
  | next (c : Configuration σ τ)
  | halt (result : ParseResult σ τ)

/-- What a number of steps lead to. -/
inductive Run (σ τ : Type) where
  | halted (result : ParseResult σ τ)
  | running (c : Configuration σ τ)

/-- Moves the topmost `n` members of a stack to a list, the lowest one first. -/
def popOnto {α : Type} : (n : Nat) → List α → List α → Option (List α × List α)
  | 0, popped, rest => some (popped, rest)
  | _ + 1, _, [] => none
  | n + 1, popped, x :: rest => popOnto n (x :: popped) rest

namespace Configuration

variable {σ ν τ : Type}

def initial (t : ParseTable σ ν) (input : List τ) : Configuration σ τ :=
  ⟨[t.initialState], [], input⟩

/-- The failure that rejects the lookahead. -/
def rejection (c : Configuration σ τ) : ParseError σ τ :=
  match c.input with
  | token :: _ => .unexpectedToken c.states.reverse token
  | [] => .unexpectedEnd c.states.reverse

/-- Moves the lookahead onto the stack; the end of the input cannot be moved. -/
def shift (c : Configuration σ τ) (next : σ) : Step σ τ :=
  match c.input with
  | token :: rest => .next ⟨next :: c.states, .leaf token :: c.nodes, rest⟩
  | [] => .halt (.error .inconsistentStack)

/-- The children of a reduction, the trees below them, and the state stack below
them with its top. -/
def uncover (c : Configuration σ τ) (length : Nat) :
    Option (List (Tree τ) × List (Tree τ) × σ × List σ) :=
  match popOnto length [] c.nodes, c.states.drop length with
  | some (children, nodes), top :: below => some (children, nodes, top, below)
  | _, _ => none

/-- Makes one node of the topmost `length` trees. A reduction of a single tree
that leads back to the state `current` would repeat forever; states are compared as
their type does it, lawful or not. -/
def reduce [BEq σ] (t : ParseTable σ ν) (c : Configuration σ τ) (current : σ)
    (symbol : ν) (length : Nat) : Step σ τ :=
  match c.uncover length with
  | none => .halt (.error .inconsistentStack)
  | some (children, nodes, top, below) =>
      let name := t.symbolName symbol
      match t.goto top symbol with
      | none => .halt (.error (.missingGoto top name))
      | some next =>
          if length = 1 ∧ next == current then .halt (.error (.cyclicReduce next name))
          else .next ⟨next :: top :: below, .node name children :: nodes, c.input⟩

/-- The tree that is left, if it is the only one. -/
def accept (c : Configuration σ τ) : Step σ τ :=
  match c.nodes with
  | [root] => .halt (.ok root)
  | _ => .halt (.error .inconsistentStack)

variable [Token τ]

/-- The name of the lookahead; `none` at the end of the input. -/
def lookahead (c : Configuration σ τ) : Option String := c.input.head?.map Token.name

variable [BEq σ]

def step (t : ParseTable σ ν) (c : Configuration σ τ) : Step σ τ :=
  match c.states with
  | [] => .halt (.error .inconsistentStack)
  | current :: _ =>
      match t.action current c.lookahead with
      | .shift next => c.shift next
      | .reduce symbol length => c.reduce t current symbol length
      | .accept => c.accept
      | .error => .halt (.error c.rejection)

def run (t : ParseTable σ ν) : (steps : Nat) → Configuration σ τ → Run σ τ
  | 0, c => .running c
  | n + 1, c =>
      match c.step t with
      | .halt result => .halted result
      | .next c => run t n c

end Configuration

namespace ParseTable

variable {σ ν τ : Type} [BEq σ] [Token τ]

/-- The result of parsing, if the engine halts within `steps` actions. -/
def parse? (t : ParseTable σ ν) (steps : Nat) (input : List τ) : Option (ParseResult σ τ) :=
  match (Configuration.initial t input).run t steps with
  | .halted result => some result
  | .running _ => none

/-- The result of parsing with a table that answers `steps` questions and says
"error" from then on. -/
def parseWithin (t : ParseTable σ ν) (steps : Nat) (input : List τ) : ParseResult σ τ :=
  match (Configuration.initial t input).run t steps with
  | .halted result => result
  | .running c => .error c.rejection

end ParseTable

end ShiftReduce
