import ShiftReduce.Grammar.Basic
import ShiftReduce.Grammar.Name

/-! # Defining a grammar

A grammar is written declaration by declaration.

- `Draft`: what has been declared so far, and the numbers to give out next.
- `DefinitionError`: why a declaration is refused; `message` is its text.
- `declareTerminal`, `declareNonterminal`, `addRule`, `setStart`: one declaration
  each. A refused one yields no draft, so what was there stays as it is.
- `Draft.ofGrammar`, `finish`: from a grammar to a draft of a larger one, and
  from a draft to a grammar.
- `Declaration`, `perform`, `performAll`, `performStrictly`: declarations as data;
  a refused one is skipped, or ends them all; `performPhases` goes on with the grammar.
-/

namespace ShiftReduce

/-! ## Reasons to refuse a declaration -/

inductive DefinitionError where
  | invalidName (name : String)
  | duplicateSymbol (name : String)
  /-- A number that should be a declared nonterminal. -/
  | unknownNonterminal (n : NonterminalId)
  /-- A symbol in the body of a rule that is not declared. -/
  | unknownSymbol (s : Symbol)
  | tooManyEntries
  | noNonterminals
  /-- A reason that the author of the grammar gives. -/
  | refused (reason : String)
deriving DecidableEq, Repr

/-- How a symbol that is not declared is named in a message. -/
def Symbol.rawText : Symbol → String
  | .terminal t => s!"T(TerminalID \x7b raw: {t} \x7d)"
  | .nonterminal n => s!"N(NonterminalID \x7b raw: {n} \x7d)"

def DefinitionError.message : DefinitionError → String
  | .invalidName name => s!"invalid symbol name: `{name}'"
  | .duplicateSymbol name => s!"the symbol `{name}' has already been declared"
  | .unknownNonterminal n => s!"unknown symbol: NonterminalID \x7b raw: {n} \x7d"
  | .unknownSymbol s => s!"unknown symbol: {s.rawText}"
  | .tooManyEntries => "Other error: too many symbols or rules"
  | .noNonterminals => "Other error: empty nonterminal symbols"
  | .refused reason => s!"Other error: {reason}"

/-! ## Drafts -/

structure Draft where
  terminals : OrderedMap TerminalId Terminal
  nonterminals : OrderedMap NonterminalId Nonterminal
  rules : OrderedMap RuleId Rule
  start : Option NonterminalId
  nextTerminal : TerminalId
  nextNonterminal : NonterminalId
  nextRule : RuleId
deriving DecidableEq, Repr

/-- Numbers are given out below this one. -/
def idLimit : Nat := 65535

namespace Draft

/-- The draft in which only the end of the input is declared. -/
def empty : Draft where
  terminals := ⟨[(endOfInput, ⟨endOfInput, endOfInputName⟩)]⟩
  nonterminals := ∅
  rules := ∅
  start := none
  nextTerminal := 1
  nextNonterminal := 0
  nextRule := 0

/-- The least number above all of these. -/
def above (ids : List Nat) : Nat := ids.foldl (fun m i => max m (i + 1)) 0

/-- The draft that holds the declarations of a grammar. -/
def ofGrammar (g : Grammar) : Draft where
  terminals := g.terminals
  nonterminals := g.nonterminals
  rules := g.rules
  start := some g.start
  nextTerminal := max (above g.terminals.keys) 1
  nextNonterminal := above g.nonterminals.keys
  nextRule := above g.rules.keys

/-- Whether a terminal or a nonterminal has the name. -/
def declares (d : Draft) (name : String) : Bool :=
  d.terminals.values.any (·.name = name) || d.nonterminals.values.any (·.name = name)

/-- Whether a symbol may stand in the body of a rule. -/
def allows (d : Draft) : Symbol → Bool
  | .terminal t => t ≠ endOfInput && d.terminals.contains t
  | .nonterminal n => d.nonterminals.contains n

/-! ## The declarations -/

def declareTerminal (d : Draft) (name : String) :
    Except DefinitionError (TerminalId × Draft) :=
  if !isValidName name then .error (.invalidName name)
  else if d.declares name then .error (.duplicateSymbol name)
  else if idLimit ≤ d.nextTerminal then .error .tooManyEntries
  else
    let t := d.nextTerminal
    .ok (t, { d with
      terminals := d.terminals.insert t ⟨t, name⟩
      nextTerminal := t + 1 })

def declareNonterminal (d : Draft) (name : String) :
    Except DefinitionError (NonterminalId × Draft) :=
  if !isValidName name then .error (.invalidName name)
  else if d.declares name then .error (.duplicateSymbol name)
  else if idLimit ≤ d.nextNonterminal then .error .tooManyEntries
  else
    let n := d.nextNonterminal
    .ok (n, { d with
      nonterminals := d.nonterminals.insert n ⟨n, name⟩
      nextNonterminal := n + 1 })

/-- The rule with this head and body, if it is there. -/
def existingRule? (d : Draft) (head : NonterminalId) (body : List Symbol) : Option Rule :=
  d.rules.values.find? fun r => r.head = head ∧ r.body = body

/-- Adds a rule; one that is there already keeps its number. -/
def addRule (d : Draft) (head : NonterminalId) (body : List Symbol) :
    Except DefinitionError (RuleId × Draft) :=
  if !d.nonterminals.contains head then .error (.unknownNonterminal head)
  else
    match body.find? (fun s => !d.allows s) with
    | some s => .error (.unknownSymbol s)
    | none =>
        match d.existingRule? head body with
        | some r => .ok (r.id, d)
        | none =>
            if idLimit ≤ d.nextRule then .error .tooManyEntries
            else
              let r := d.nextRule
              .ok (r, { d with
                rules := d.rules.insert r ⟨r, head, body⟩
                nextRule := r + 1 })

def setStart (d : Draft) (n : NonterminalId) : Except DefinitionError Draft :=
  if d.nonterminals.contains n then .ok { d with start := some n }
  else .error (.unknownNonterminal n)

/-- The grammar that has been declared. Its start symbol is the first
nonterminal unless another one has been chosen. -/
def finish (d : Draft) : Except DefinitionError Grammar :=
  match d.start <|> d.nonterminals.keys.head? with
  | some start => .ok ⟨d.terminals, d.nonterminals, d.rules, start⟩
  | none => .error .noNonterminals

end Draft

/-! ## Declarations as data -/

inductive Declaration where
  | terminal (name : String)
  | nonterminal (name : String)
  | rule (head : NonterminalId) (body : List Symbol)
  | start (n : NonterminalId)
  /-- A declaration that its author withdraws for a reason. -/
  | fail (reason : String)
deriving DecidableEq, Repr

namespace Draft

/-- One declaration, with the number that it was given, if it has one. -/
def declare (d : Draft) : Declaration → Except DefinitionError (Option Nat × Draft)
  | .terminal name => (d.declareTerminal name).map fun (t, d) => (some t, d)
  | .nonterminal name => (d.declareNonterminal name).map fun (n, d) => (some n, d)
  | .rule head body => (d.addRule head body).map fun (r, d) => (some r, d)
  | .start n => (d.setStart n).map fun d => (none, d)
  | .fail reason => .error (.refused reason)

/-- What a declaration answers: a number, nothing, or the reason to refuse it. -/
abbrev Reply := Except DefinitionError (Option Nat)

/-- One declaration; a refused one changes nothing. -/
def perform (d : Draft) (c : Declaration) : Reply × Draft :=
  match d.declare c with
  | .ok (id, d) => (.ok id, d)
  | .error e => (.error e, d)

/-- Declarations in order, refused ones being skipped. -/
def performAll (d : Draft) : List Declaration → List Reply × Draft
  | [] => ([], d)
  | c :: cs =>
      let (reply, d) := d.perform c
      let (replies, d) := performAll d cs
      (reply :: replies, d)

/-- Declarations in order up to the first refused one, which ends them all. -/
def performStrictly (d : Draft) : List Declaration → List Reply × Except DefinitionError Draft
  | [] => ([], .ok d)
  | c :: cs =>
      match d.declare c with
      | .error e => ([.error e], .error e)
      | .ok (id, d) =>
          let (replies, result) := performStrictly d cs
          (.ok id :: replies, result)

/-- Declarations and the grammar that they make, with the replies to them. -/
def grammarOf (strict : Bool) (d : Draft) (cs : List Declaration) :
    List Reply × Except DefinitionError Grammar :=
  if strict then
    let (replies, result) := d.performStrictly cs
    (replies, result.bind finish)
  else
    let (replies, d) := d.performAll cs
    (replies, d.finish)

/-- Phases of declarations, each on the grammar of the one before it, with the replies. A phase
that makes no grammar is the last one. -/
def performPhases (d : Draft) :
    List (List Declaration) → List (List Reply) × Except DefinitionError Grammar
  | [] => ([], d.finish)
  | cs :: phases =>
      let (replies, d) := d.performAll cs
      match d.finish with
      | .error e => ([replies], .error e)
      | .ok g =>
          let (rest, result) := performPhases (ofGrammar g) phases
          (replies :: rest, result)

end Draft

/-- The grammar of some declarations, refused ones being skipped. -/
def Grammar.define (cs : List Declaration) : Except DefinitionError Grammar :=
  (Draft.empty.performAll cs).2.finish

/-- A grammar with further declarations, refused ones being skipped. -/
def Grammar.extend (g : Grammar) (cs : List Declaration) : Except DefinitionError Grammar :=
  ((Draft.ofGrammar g).performAll cs).2.finish

end ShiftReduce
