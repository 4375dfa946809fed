import ShiftReduce.Automaton.Collection

/-! # SLR(1) tables

- `Action`, `Row`: what a state does on a terminal, and where it goes to on a
  nonterminal.
- `Conflict`: an action that lost its cell to an earlier one.
- `ParsingTable`: a row for each state, and the conflicts that were met.
-/

namespace ShiftReduce

inductive Action where
  | shift (next : StateId)
  | reduce (rule : RuleId)
  | accept
deriving DecidableEq, Repr

structure Row where
  actions : OrderedMap TerminalId Action
  gotos : OrderedMap NonterminalId StateId
deriving DecidableEq, Repr

inductive ConflictKind where
  | shiftReduce
  | reduceReduce
  | acceptReduce
deriving DecidableEq, Repr

/-- A cell that two actions claim: the earlier one is kept. -/
structure Conflict where
  state : StateId
  lookahead : TerminalId
  kept : Action
  discarded : Action
deriving DecidableEq, Repr

def Conflict.kind (c : Conflict) : ConflictKind :=
  match c.kept, c.discarded with
  | .reduce _, .reduce _ => .reduceReduce
  | .accept, _ => .acceptReduce
  | _, .accept => .acceptReduce
  | _, _ => .shiftReduce

structure ParsingTable where
  grammar : Augmented
  rows : List Row
  conflicts : List Conflict
deriving DecidableEq, Repr

namespace ParsingTable

/-- Parsing starts in the first state. -/
def start : StateId := Automaton.start

def row? (t : ParsingTable) (s : StateId) : Option Row := t.rows[s]?

def action? (t : ParsingTable) (s : StateId) (lookahead : TerminalId) : Option Action :=
  (t.row? s).bind (·.actions.find? lookahead)

def goto? (t : ParsingTable) (s : StateId) (n : NonterminalId) : Option StateId :=
  (t.row? s).bind (·.gotos.find? n)

end ParsingTable

end ShiftReduce
