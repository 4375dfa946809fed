import ShiftReduce.Grammar.Draft

/-! # Declarations in place

A declaration of `Grammar.Draft` yields a new draft or none at all. Here it writes to the draft
that is there, one field after the other, and what it has written stays if it fails after that.

- `Drafting`: what reads and writes a draft and may fail; `Drafting.exec` does it.
- `Drafting.checkName`, `successor`, `checkBody`: the checks that the declarations share.
- `Drafting.declare`: one declaration.
- `Draft.performInPlace`: its reply, and the draft that it leaves behind.
-/

namespace ShiftReduce

/-- A failure leaves the draft as it is at that moment. -/
abbrev Drafting := ExceptT DefinitionError (StateM Draft)

namespace Drafting

/-- The result, and what has become of the draft, whether it fails or not. -/
def exec {α : Type} (m : Drafting α) (d : Draft) : Except DefinitionError α × Draft :=
  Id.run (m.run.run d)

def checkName (name : String) : Drafting Unit := do
  if !isValidName name then throw (.invalidName name)
  if (← get).declares name then throw (.duplicateSymbol name)

/-- The number to give out after `n`, if there is one. -/
def successor (n : Nat) : Drafting Nat :=
  if idLimit ≤ n then throw .tooManyEntries else return n + 1

/-- Fails on the first symbol that may not stand in a body. -/
def checkBody : List Symbol → Drafting Unit
  | [] => return
  | s :: body => do
      if !(← get).allows s then throw (.unknownSymbol s)
      checkBody body

def declareTerminal (name : String) : Drafting TerminalId := do
  checkName name
  let t := (← get).nextTerminal
  let next ← successor t
  modify fun d => { d with nextTerminal := next }
  modify fun d => { d with terminals := d.terminals.insert t ⟨t, name⟩ }
  return t

def declareNonterminal (name : String) : Drafting NonterminalId := do
  checkName name
  let n := (← get).nextNonterminal
  let next ← successor n
  modify fun d => { d with nextNonterminal := next }
  modify fun d => { d with nonterminals := d.nonterminals.insert n ⟨n, name⟩ }
  return n

def addRule (head : NonterminalId) (body : List Symbol) : Drafting RuleId := do
  if !(← get).nonterminals.contains head then throw (.unknownNonterminal head)
  checkBody body
  match (← get).existingRule? head body with
  | some r => return r.id
  | none =>
      let r := (← get).nextRule
      let next ← successor r
      modify fun d => { d with nextRule := next }
      modify fun d => { d with rules := d.rules.insert r ⟨r, head, body⟩ }
      return r

def setStart (n : NonterminalId) : Drafting Unit := do
  if !(← get).nonterminals.contains n then throw (.unknownNonterminal n)
  modify fun d => { d with start := some n }

def declare : Declaration → Drafting (Option Nat)
  | .terminal name => return some (← declareTerminal name)
  | .nonterminal name => return some (← declareNonterminal name)
  | .rule head body => return some (← addRule head body)
  | .start n => do
      setStart n
      return none
  | .fail reason => throw (.refused reason)

end Drafting

/-- The reply to a declaration, and what it leaves of the draft. -/
def Draft.performInPlace (d : Draft) (c : Declaration) : Draft.Reply × Draft :=
  (Drafting.declare c).exec d

end ShiftReduce
