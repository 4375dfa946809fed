import ShiftReduce.Grammar.Draft
import ShiftReduce.Text.Pieces

/-! # Grammars as text

A grammar source has one declaration a line. The first line names the
nonterminals, the second one the terminals, and each further line gives the
alternatives of a head. Blank lines and lines that start with `#` do not count.

- `Fault`, `SourceError`: what is wrong with a source, and in which line.
- `significantLines`: the numbered lines that count, trimmed.
- `alternative`, `ruleLine`: what a line of rules says.
- `Grammar.ofSource`: the grammar of a source.
-/

namespace ShiftReduce

/-! ## What can be wrong -/

inductive Fault where
  | missingNonterminals
  | missingTerminals
  /-- A declaration of this line is refused. -/
  | definition (e : DefinitionError)
  | missingArrow
  | terminalHead (name : String)
  | unknownHead (name : String)
  | unknownSymbol (name : String)
  | emptyAlternative (head : String)
  /-- The empty string stands beside other symbols. -/
  | mixedEpsilon (head : String)
deriving DecidableEq, Repr

def Fault.message : Fault → String
  | .missingNonterminals => "missing nonterminal declarations"
  | .missingTerminals => "missing terminal declarations"
  | .definition e => e.message
  | .missingArrow => "expected `->' after the head of the production"
  | .terminalHead name => s!"the terminal `{name}' cannot be a head"
  | .unknownHead name => s!"unknown nonterminal `{name}'"
  | .unknownSymbol name => s!"unknown symbol `{name}'"
  | .emptyAlternative head =>
      s!"empty alternative for `{head}' (write {epsilon} for the empty string)"
  | .mixedEpsilon head =>
      s!"{epsilon} must be the only symbol of an alternative for `{head}'"

inductive SourceError where
  /-- The line with this number, counted from one, is at fault. -/
  | malformed (line : Nat) (fault : Fault)
  /-- All lines are good, but they declare no grammar. -/
  | undefined (e : DefinitionError)
deriving DecidableEq, Repr

def SourceError.message : SourceError → String
  | .malformed line fault =>
      let text := fault.message
      s!"syntax error at line {line}: {text}"
  | .undefined e => e.message

/-! ## Lines -/

/-- A trimmed line with its number. -/
structure SourceLine where
  number : Nat
  text : List Char
deriving DecidableEq, Repr

def SourceLine.isSignificant (line : SourceLine) : Bool :=
  match line.text with
  | [] => false
  | c :: _ => c ≠ '#'

def sourceLines (source : String) : List SourceLine :=
  ((Text.splitOn '\n' source.toList).zipIdx 1).map fun (text, n) => ⟨n, Text.trim text⟩

def significantLines (source : String) : List SourceLine :=
  (sourceLines source).filter (·.isSignificant)

/-! ## Declaration lines -/

/-- The trimmed names between the commas of a line. -/
def declaredNames (text : List Char) : List String :=
  (Text.splitOn ',' text).map fun piece => String.ofList (Text.trim piece)

def declareNonterminals (d : Draft) : List String → Except DefinitionError Draft
  | [] => .ok d
  | name :: names =>
      match d.declareNonterminal name with
      | .error e => .error e
      | .ok (_, d) => declareNonterminals d names

def declareTerminals (d : Draft) : List String → Except DefinitionError Draft
  | [] => .ok d
  | name :: names =>
      match d.declareTerminal name with
      | .error e => .error e
      | .ok (_, d) => declareTerminals d names

/-! ## Lines of rules -/

/-- The symbol that a name stands for in a rule. -/
def Draft.symbol? (d : Draft) (name : String) : Option Symbol :=
  match d.nonterminals.values.find? (·.name = name) with
  | some n => some (.nonterminal n.id)
  | none =>
      match d.terminals.values.find? (fun t => t.name = name ∧ t.id ≠ endOfInput) with
      | some t => some (.terminal t.id)
      | none => none

def isEpsilon (name : String) : Bool := name = epsilon || name = epsilonWord

/-- The symbols that the names stand for. -/
def symbolsOf (d : Draft) : List String → Except Fault (List Symbol)
  | [] => .ok []
  | name :: names =>
      match d.symbol? name with
      | none => .error (.unknownSymbol name)
      | some s => (symbolsOf d names).map (s :: ·)

/-- The body that one alternative of `head` spells. -/
def alternative (d : Draft) (head : String) (text : List Char) : Except Fault (List Symbol) :=
  let names := (Text.words text).map String.ofList
  match symbolsOf d (names.filter (!isEpsilon ·)) with
  | .error fault => .error fault
  | .ok body =>
      if names.isEmpty then .error (.emptyAlternative head)
      else if !body.isEmpty && names.any isEpsilon then .error (.mixedEpsilon head)
      else .ok body

/-- Adds the alternatives of `head` in order, up to the first one at fault. -/
def addAlternatives (d : Draft) (name : String) (head : NonterminalId) :
    List (List Char) → Except Fault Draft
  | [] => .ok d
  | text :: texts =>
      match alternative d name text with
      | .error fault => .error fault
      | .ok body =>
          match d.addRule head body with
          | .error e => .error (.definition e)
          | .ok (_, d) => addAlternatives d name head texts

/-- The head of a line of rules, with its name, and its alternatives. -/
def ruleLine (d : Draft) (text : List Char) :
    Except Fault (String × NonterminalId × List (List Char)) :=
  match Text.splitArrow text with
  | none => .error .missingArrow
  | some (before, after) =>
      let name := String.ofList (Text.trim before)
      match d.symbol? name with
      | none => .error (.unknownHead name)
      | some (.terminal _) => .error (.terminalHead name)
      | some (.nonterminal head) => .ok (name, head, Text.splitOn '|' after)

def addRuleLine (d : Draft) (text : List Char) : Except Fault Draft :=
  match ruleLine d text with
  | .error fault => .error fault
  | .ok (name, head, texts) => addAlternatives d name head texts

def addRuleLines (d : Draft) : List SourceLine → Except SourceError Draft
  | [] => .ok d
  | line :: lines =>
      match addRuleLine d line.text with
      | .error fault => .error (.malformed line.number fault)
      | .ok d => addRuleLines d lines

/-! ## Sources -/

/-- The draft in which the symbols of the two declaration lines are declared. -/
def declareSymbols (nonterminals terminals : SourceLine) : Except SourceError Draft :=
  match declareNonterminals .empty (declaredNames nonterminals.text) with
  | .error e => .error (.malformed nonterminals.number (.definition e))
  | .ok d =>
      match declareTerminals d (declaredNames terminals.text) with
      | .error e => .error (.malformed terminals.number (.definition e))
      | .ok d => .ok d

/-- The draft that the significant lines of a source declare. -/
def draftOfLines : List SourceLine → Except SourceError Draft
  | [] => .error (.malformed 1 .missingNonterminals)
  | [line] => .error (.malformed (line.number + 1) .missingTerminals)
  | nonterminals :: terminals :: lines =>
      match declareSymbols nonterminals terminals with
      | .error e => .error e
      | .ok d => addRuleLines d lines

def Grammar.ofSource (source : String) : Except SourceError Grammar :=
  match draftOfLines (significantLines source) with
  | .error e => .error e
  | .ok d =>
      match d.finish with
      | .error e => .error (.undefined e)
      | .ok g => .ok g

end ShiftReduce
