import ShiftReduce.Grammar.Draft

/-! # Well-formed grammars

- `Grammar.WellFormed`: what holds of every grammar that declarations make.
- `Grammar.IsDefined`: the grammars that declarations make, in any number of
  phases.
-/

namespace ShiftReduce

namespace Grammar

/-- Whether a symbol is declared and may stand in the body of a rule. -/
def Allows (g : Grammar) : Symbol → Prop
  | .terminal t => t ≠ endOfInput ∧ t ∈ g.terminals.keys
  | .nonterminal n => n ∈ g.nonterminals.keys

structure WellFormed (g : Grammar) : Prop where
  terminal_id : ∀ e ∈ g.terminals.entries, e.1 = e.2.id
  nonterminal_id : ∀ e ∈ g.nonterminals.entries, e.1 = e.2.id
  rule_id : ∀ e ∈ g.rules.entries, e.1 = e.2.id
  terminal_keys : g.terminals.keys.Nodup
  nonterminal_keys : g.nonterminals.keys.Nodup
  rule_keys : g.rules.keys.Nodup
  /-- All names are different, across both kinds of symbols. -/
  names : (g.terminals.values.map (·.name) ++ g.nonterminals.values.map (·.name)).Nodup
  terminal_names : ∀ t ∈ g.terminals.values,
    if t.id = endOfInput then t.name = endOfInputName else isValidName t.name = true
  nonterminal_names : ∀ n ∈ g.nonterminals.values, isValidName n.name = true
  end_of_input : g.terminals.find? endOfInput = some ⟨endOfInput, endOfInputName⟩
  start : g.start ∈ g.nonterminals.keys
  heads : ∀ r ∈ g.rules.values, r.head ∈ g.nonterminals.keys
  bodies : ∀ r ∈ g.rules.values, ∀ s ∈ r.body, g.Allows s
  /-- No two rules have the same head and the same body. -/
  rules : (g.rules.values.map fun r => (r.head, r.body)).Nodup

/-- Made by declarations, refused ones being skipped, in one or more phases. -/
inductive IsDefined : Grammar → Prop where
  | define {cs : List Declaration} {g : Grammar} (h : Grammar.define cs = .ok g) :
      IsDefined g
  | extend {g : Grammar} {cs : List Declaration} {g' : Grammar} (hg : IsDefined g)
      (h : g.extend cs = .ok g') : IsDefined g'

end Grammar

end ShiftReduce
