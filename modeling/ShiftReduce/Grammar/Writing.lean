import Mathlib.Data.List.Infix
import ShiftReduce.Grammar.Render

/-! # Grammars written as sources

- `Grammar.nonterminalNames`, `Grammar.terminalNames`: the names that a source declares.
- `Grammar.writtenLines`: a line of nonterminals, one of terminals, and one for each rule.
- `Grammar.IsWritable`: these lines say all of the grammar, and none of them says anything else.
-/

namespace ShiftReduce

namespace Grammar

def nonterminalNames (g : Grammar) : List String := g.nonterminals.values.map (·.name)

/-- The end of the input is declared by itself. -/
def terminalNames (g : Grammar) : List String :=
  (g.terminals.values.map (·.name)).filter (· ≠ endOfInputName)

def writtenLines (g : Grammar) : List String :=
  ", ".intercalate g.nonterminalNames :: ", ".intercalate g.terminalNames ::
    g.rules.values.map (·.render g)

structure IsWritable (g : Grammar) : Prop where
  /-- No line says which nonterminal the start symbol is. -/
  start : g.nonterminals.keys.head? = some g.start
  /-- An empty line would not count. -/
  terminals : g.terminalNames ≠ []
  /-- A line of rules is cut at its first arrow. -/
  arrows : ∀ name ∈ g.nonterminalNames, ¬ ['-', '>'] <:+: name.toList
  /-- No line begins like a comment. -/
  nonterminal_marks : ∀ name ∈ g.nonterminalNames, name.toList.head? ≠ some '#'
  terminal_mark : ∀ name ∈ g.terminalNames.head?, name.toList.head? ≠ some '#'

instance (g : Grammar) : Decidable g.IsWritable :=
  decidable_of_iff (g.nonterminals.keys.head? = some g.start ∧ g.terminalNames ≠ [] ∧
    (∀ name ∈ g.nonterminalNames, ¬ ['-', '>'] <:+: name.toList) ∧
    (∀ name ∈ g.nonterminalNames, name.toList.head? ≠ some '#') ∧
    ∀ name ∈ g.terminalNames.head?, name.toList.head? ≠ some '#')
    ⟨fun ⟨h1, h2, h3, h4, h5⟩ => ⟨h1, h2, h3, h4, h5⟩,
      fun h => ⟨h.start, h.terminals, h.arrows, h.nonterminal_marks, h.terminal_mark⟩⟩

end Grammar

end ShiftReduce
