/-! # Grammar symbols

- `TerminalId`, `NonterminalId`, `RuleId`: numbers that stand for the declared
  terminals, nonterminals and rules. Terminal `0` is the end of the input.
- `Symbol`: a terminal or a nonterminal, as it stands in the body of a rule.
-/

namespace ShiftReduce

abbrev TerminalId := Nat

abbrev NonterminalId := Nat

abbrev RuleId := Nat

/-- The terminal that stands for the end of the input. -/
def endOfInput : TerminalId := 0

inductive Symbol where
  | terminal (t : TerminalId)
  | nonterminal (n : NonterminalId)
deriving DecidableEq, Repr

end ShiftReduce
