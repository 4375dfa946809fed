import ShiftReduce.Fixpoint
import ShiftReduce.Grammar.Basic
import ShiftReduce.Search.Basic
import ShiftReduce.TerminalSet

/-! # FIRST sets

- `nullableNonterminals`: the nonterminals that derive the empty string.
- `FirstSets`: these and, for each nonterminal, the terminals that a string
  derived from it can start with; `Grammar.firstSets` computes both.
- `FirstSets.ofSymbols`: the same for a sequence of symbols.
-/

namespace ShiftReduce

/-! ## Nullable nonterminals -/

def isNullableIn (ns : List NonterminalId) : Symbol → Bool
  | .terminal _ => false
  | .nonterminal n => ns.contains n

/-- The heads of the rules with an empty body. -/
def nullableSeed (g : Grammar) : List NonterminalId :=
  addNew [] ((g.rules.values.filter (·.body.isEmpty)).map (·.head))

/-- Adds the head of a rule whose body consists of members. -/
def addNullable (ns : List NonterminalId) (r : Rule) : List NonterminalId :=
  if ns.contains r.head then ns
  else if r.body.all (isNullableIn ns) then ns ++ [r.head]
  else ns

/-- Goes once through the rules; each sees what those before it did. -/
def nullablePass (g : Grammar) (ns : List NonterminalId) : List NonterminalId :=
  g.rules.values.foldl addNullable ns

/-- The nonterminals that derive the empty string, in the order in which they are found. -/
def nullableNonterminals (g : Grammar) : List NonterminalId :=
  (settle (nullablePass g) (g.nonterminals.size + 1) (nullableSeed g)).1

/-! ## Constraints on FIRST sets -/

/-- FIRST of `larger` includes FIRST of `smaller`. -/
structure Inclusion where
  larger : NonterminalId
  smaller : NonterminalId
deriving DecidableEq, Repr

/-- The symbols of a body up to the first one that is not nullable, included. -/
def leadingSymbols (ns : List NonterminalId) : List Symbol → List Symbol
  | [] => []
  | s :: ss => if isNullableIn ns s then s :: leadingSymbols ns ss else [s]

/-- The inclusions that a rule asks for; one in itself says nothing. -/
def ruleInclusions (ns : List NonterminalId) (r : Rule) : List Inclusion :=
  (leadingSymbols ns r.body).filterMap fun s =>
    match s with
    | .terminal _ => none
    | .nonterminal n => if n = r.head then none else some ⟨r.head, n⟩

/-- The terminals that a rule puts into FIRST of its head by itself. -/
def ruleTerminals (ns : List NonterminalId) (r : Rule) : List TerminalId :=
  (leadingSymbols ns r.body).filterMap fun s =>
    match s with
    | .terminal t => some t
    | .nonterminal _ => none

abbrev TerminalSets := OrderedMap NonterminalId TerminalSet

namespace TerminalSets

/-- The set of a nonterminal; empty if it has none. -/
def get (m : TerminalSets) (n : NonterminalId) : TerminalSet := (m.find? n).getD ∅

/-- Adds the members of `s` to the set of `n`. -/
def grow (m : TerminalSets) (n : NonterminalId) (s : TerminalSet) : TerminalSets :=
  m.insert n ((m.get n).union s)

end TerminalSets

/-- The sets that hold only what the rules put there by themselves. -/
def firstSeed (g : Grammar) (ns : List NonterminalId) : TerminalSets :=
  g.rules.values.foldl
    (fun m r => m.grow r.head (.ofList (ruleTerminals ns r)))
    (.const g.nonterminals.keys ∅)

/-- Goes once through the inclusions; each sees what those before it did. -/
def firstPass (inclusions : List Inclusion) (m : TerminalSets) : TerminalSets :=
  inclusions.foldl (fun m c => m.grow c.larger (m.get c.smaller)) m

/-- No more passes than this change anything: each adds a terminal to a set. -/
def growthBound (g : Grammar) : Nat := g.nonterminals.size * g.terminals.size + 1

/-! ## FIRST sets of a grammar -/

structure FirstSets where
  nullable : List NonterminalId
  sets : TerminalSets
  /-- How many passes were made, with the last one, which changed nothing. -/
  rounds : Nat
deriving DecidableEq, Repr

def Grammar.firstSets (g : Grammar) : FirstSets :=
  let ns := nullableNonterminals g
  let inclusions := g.rules.values.flatMap (ruleInclusions ns)
  let (sets, rounds) := settle (firstPass inclusions) (growthBound g) (firstSeed g ns)
  ⟨ns, sets, rounds⟩

/-- The terminals that a string can start with, and whether it can be empty. -/
structure FirstSet where
  terminals : TerminalSet
  nullable : Bool
deriving DecidableEq, Repr

namespace FirstSets

def isNullable (f : FirstSets) (s : Symbol) : Bool := isNullableIn f.nullable s

def terminalsOf (f : FirstSets) : Symbol → TerminalSet
  | .terminal t => (∅ : TerminalSet).insert t
  | .nonterminal n => f.sets.get n

/-- FIRST of a sequence; each symbol counts while those before it are nullable. -/
def ofSymbols (f : FirstSets) : List Symbol → FirstSet
  | [] => ⟨∅, true⟩
  | s :: ss =>
      if f.isNullable s then
        let rest := f.ofSymbols ss
        ⟨(f.terminalsOf s).union rest.terminals, rest.nullable⟩
      else ⟨f.terminalsOf s, false⟩

end FirstSets

end ShiftReduce
