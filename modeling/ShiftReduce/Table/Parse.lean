import ShiftReduce.Engine.Run
import ShiftReduce.Table.Basic

/-! # Parsing with a table

- `lookahead?`: the terminal that a token of this name is an instance of.
- `ParsingTable.parseTable`: the table as the engine asks it.
-/

namespace ShiftReduce

namespace ParsingTable

/-- The terminal with a name; without a name it is the end of the input, which
no name stands for. -/
def lookahead? (t : ParsingTable) : Option String → Option TerminalId
  | none => some endOfInput
  | some name =>
      (t.grammar.grammar.terminals.values.find? fun x =>
        x.name = name ∧ x.id ≠ endOfInput).map (·.id)

/-- What the engine does on an action of the table. -/
def engineAction (t : ParsingTable) : Option Action → ParseAction StateId NonterminalId
  | some (.shift next) => .shift next
  | some (.reduce r) =>
      match t.grammar.grammar.rule? r with
      | some rule => .reduce rule.head rule.body.length
      | none => .error
  | some .accept => .accept
  | none => .error

def parseTable (t : ParsingTable) : ParseTable StateId NonterminalId where
  initialState := start
  action s name := t.engineAction ((t.lookahead? name).bind (t.action? s))
  goto := t.goto?
  symbolName := t.grammar.grammar.nonterminalName

end ParsingTable

end ShiftReduce
