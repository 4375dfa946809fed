import ShiftReduce.Grammar.First
import ShiftReduce.Grammar.Name
import ShiftReduce.Text.Listing

/-! # The text of a grammar

- `Rule.render`: a rule as `L -> R1 R2`.
- `TerminalSet.render`: a set of terminals as `{a, b}`.
- `FirstSet.render`: the same, with the empty string as its last member if the
  set belongs to a nullable string.
- `Grammar.render`: the terminals, nonterminals and rules, one a line.
-/

namespace ShiftReduce

def Rule.render (g : Grammar) (r : Rule) : String :=
  let body :=
    if r.body.isEmpty then epsilon
    else " ".intercalate (r.body.map g.symbolName)
  s!"{g.nonterminalName r.head} -> {body}"

/-- The names of the members, in the order of their numbers. -/
def TerminalSet.names (g : Grammar) (s : TerminalSet) : List String :=
  s.toList.map g.terminalName

def TerminalSet.render (g : Grammar) (s : TerminalSet) : String :=
  Text.braced (s.names g)

def FirstSet.render (g : Grammar) (f : FirstSet) : String :=
  Text.braced (f.terminals.names g ++ if f.nullable then [epsilon] else [])

namespace Grammar

def nonterminalLine (g : Grammar) (n : Nonterminal) : String :=
  if n.id = g.start then n.name ++ " (start)" else n.name

/-- Three sections: terminals, nonterminals and rules. -/
def render (g : Grammar) : String :=
  Text.lines <|
    ["## terminals:"] ++ g.terminals.values.map (·.name) ++
    ["", "## nonterminals:"] ++ g.nonterminals.values.map g.nonterminalLine ++
    ["", "## rules:"] ++ g.rules.values.map (·.render g)

end Grammar

end ShiftReduce
