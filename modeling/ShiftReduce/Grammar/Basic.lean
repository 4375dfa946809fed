import ShiftReduce.OrderedMap
import ShiftReduce.Symbol

/-! # Context-free grammars

- `Terminal`, `Nonterminal`, `Rule`: what a grammar declares, each with the
  number that stands for it.
- `Grammar`: the declarations in the order in which they were made, and the
  start symbol.
- Lookups by number and by name.
- `bareNonterminals`: the nonterminals that no rule defines.
-/

namespace ShiftReduce

structure Terminal where
  id : TerminalId
  name : String
deriving DecidableEq, Repr

structure Nonterminal where
  id : NonterminalId
  name : String
deriving DecidableEq, Repr

/-- The rule that replaces `head` by `body`; an empty body is the empty string. -/
structure Rule where
  id : RuleId
  head : NonterminalId
  body : List Symbol
deriving DecidableEq, Repr

structure Grammar where
  terminals : OrderedMap TerminalId Terminal
  nonterminals : OrderedMap NonterminalId Nonterminal
  rules : OrderedMap RuleId Rule
  start : NonterminalId
deriving DecidableEq, Repr

namespace Grammar

/-! ## Lookups -/

def rule? (g : Grammar) (r : RuleId) : Option Rule := g.rules.find? r

/-- The body of a rule; empty for a number that stands for no rule. -/
def body (g : Grammar) (r : RuleId) : List Symbol :=
  match g.rule? r with
  | some rule => rule.body
  | none => []

def terminalName (g : Grammar) (t : TerminalId) : String :=
  match g.terminals.find? t with
  | some x => x.name
  | none => ""

def nonterminalName (g : Grammar) (n : NonterminalId) : String :=
  match g.nonterminals.find? n with
  | some x => x.name
  | none => ""

def symbolName (g : Grammar) : Symbol → String
  | .terminal t => g.terminalName t
  | .nonterminal n => g.nonterminalName n

/-- The rules in order, head and body read by names. -/
def namedRules (g : Grammar) : List (String × List String) :=
  g.rules.values.map fun r => (g.nonterminalName r.head, r.body.map g.symbolName)

def terminalByName? (g : Grammar) (name : String) : Option TerminalId :=
  (g.terminals.values.find? (·.name = name)).map (·.id)

def nonterminalByName? (g : Grammar) (name : String) : Option NonterminalId :=
  (g.nonterminals.values.find? (·.name = name)).map (·.id)

/-- The symbol with a name, a terminal if both kinds have it. -/
def symbolByName? (g : Grammar) (name : String) : Option Symbol :=
  match g.terminalByName? name with
  | some t => some (.terminal t)
  | none => (g.nonterminalByName? name).map .nonterminal

/-- Whether a terminal or a nonterminal has the name. -/
def declares (g : Grammar) (name : String) : Bool :=
  g.terminals.values.any (·.name = name) || g.nonterminals.values.any (·.name = name)

def rulesOf (g : Grammar) (n : NonterminalId) : List Rule :=
  g.rules.values.filter (·.head = n)

/-- The nonterminals that are the head of no rule. -/
def bareNonterminals (g : Grammar) : List Nonterminal :=
  g.nonterminals.values.filter fun n => g.rules.values.all (·.head ≠ n.id)

end Grammar

end ShiftReduce
