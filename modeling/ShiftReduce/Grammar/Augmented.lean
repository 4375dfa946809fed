import ShiftReduce.Grammar.Draft

/-! # Augmented grammars

- `Augmented`: a grammar with a fresh start symbol `S'` whose only rule is
  `S' -> S`, for the start symbol `S` of another grammar.
- `Grammar.augment`: adds that symbol and that rule.
-/

namespace ShiftReduce

structure Augmented where
  grammar : Grammar
  /-- The symbol `S`. -/
  innerStart : NonterminalId
  /-- The rule `S' -> S`. -/
  acceptRule : RuleId
deriving DecidableEq, Repr

/-- The name with as many primes as make it free, at most `n` of them. -/
def primed (taken : String → Bool) : (n : Nat) → String → String
  | 0, name => name
  | n + 1, name => if taken name then primed taken n (name ++ "'") else name

namespace Grammar

/-- A name that no symbol has. Among one name more than there are symbols, one
is free. -/
def freshStartName (g : Grammar) : String :=
  primed g.declares (g.terminals.size + g.nonterminals.size)
    (g.nonterminalName g.start ++ "'")

def augment (g : Grammar) : Except DefinitionError Augmented := do
  let (start, d) ← (Draft.ofGrammar g).declareNonterminal g.freshStartName
  let (acceptRule, d) ← d.addRule start [.nonterminal g.start]
  let d ← d.setStart start
  let grammar ← d.finish
  return ⟨grammar, g.start, acceptRule⟩

end Grammar

end ShiftReduce
