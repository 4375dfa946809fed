import ShiftReduce.Automaton.Render
import ShiftReduce.Table.Basic

/-! # The text of a table

- `Action.render`, `Conflict.render`, `ConflictKind.text`.
- `ParsingTable.render`: the rows, and the conflicts if there are any.
-/

namespace ShiftReduce

def Action.render (g : Grammar) : Action → String
  | .shift next => s!"shift({stateText next})"
  | .reduce r =>
      match g.rule? r with
      | some rule => s!"reduce({rule.render g})"
      | none => "reduce()"
  | .accept => "accept"

def ConflictKind.text : ConflictKind → String
  | .shiftReduce => "shift/reduce"
  | .reduceReduce => "reduce/reduce"
  | .acceptReduce => "accept/reduce"

def Conflict.render (g : Grammar) (c : Conflict) : String :=
  s!"{c.kind.text} conflict in state {stateText c.state} on `{g.terminalName c.lookahead}'" ++
  s!": kept {c.kept.render g}, discarded {c.discarded.render g}"

def Row.lines (g : Grammar) (id : StateId) (r : Row) : List String :=
  let mark := if id = ParsingTable.start then " (start)" else ""
  [s!"#### State {stateText id}{mark}", "## actions"] ++
  (r.actions.entries.map fun (t, action) => s!"- {g.terminalName t} => {action.render g}") ++
  ["## gotos"] ++
  (r.gotos.entries.map fun (n, next) => s!"- {g.nonterminalName n} => goto({stateText next})")

def ParsingTable.render (t : ParsingTable) : String :=
  let g := t.grammar.grammar
  let rows := t.rows.zipIdx.map fun (r, id) => Text.lines (r.lines g id)
  let conflicts :=
    if t.conflicts.isEmpty then []
    else ["", "## conflicts"] ++ t.conflicts.map fun c => "- " ++ c.render g
  "\n".intercalate rows ++ Text.lines conflicts

end ShiftReduce
