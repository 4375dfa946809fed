import ShiftReduce.Grammar.Cyclic
import ShiftReduce.Grammar.Follow
import ShiftReduce.Table.Basic

/-! # Building a table

- `claims`: the actions that a state asks for, in order of precedence: accept,
  shifts, reductions.
- `settleClaims`: each cell goes to the first action that claims it; every other
  one is a conflict.
- `Augmented.table`: the table of a grammar, conflicts or not.
- `Grammar.table`: the same for a grammar that is not augmented yet; it refuses
  cyclic grammars and, under the policy `deny`, conflicts.
-/

namespace ShiftReduce

/-! ## Rows -/

structure Claim where
  lookahead : TerminalId
  action : Action
deriving DecidableEq, Repr

def acceptClaims (a : Augmented) (complete : List Item) : List Claim :=
  if complete.any (·.rule = a.acceptRule) then [⟨endOfInput, .accept⟩] else []

def shiftClaims (s : State) : List Claim :=
  s.transitions.entries.filterMap fun (x, next) =>
    match x with
    | .terminal t => some ⟨t, .shift next⟩
    | .nonterminal _ => none

/-- Each complete item claims its reduction on what follows the head. -/
def reduceClaims (a : Augmented) (follow : FollowSets) (complete : List Item) : List Claim :=
  (complete.filter (·.rule ≠ a.acceptRule)).flatMap fun x =>
    match a.grammar.rule? x.rule with
    | some r => (follow.get r.head).toList.map fun t => ⟨t, .reduce x.rule⟩
    | none => []

def claims (a : Augmented) (follow : FollowSets) (s : State) : List Claim :=
  let complete := s.items.items.filter (·.isComplete a.grammar)
  acceptClaims a complete ++ shiftClaims s ++ reduceClaims a follow complete

/-- The cells that have been filled, and the conflicts so far. -/
structure Cells where
  actions : OrderedMap TerminalId Action
  conflicts : List Conflict
deriving DecidableEq, Repr

def Cells.claim (state : StateId) (cells : Cells) (c : Claim) : Cells :=
  match cells.actions.find? c.lookahead with
  | none => { cells with actions := cells.actions.insert c.lookahead c.action }
  | some kept =>
      if kept = c.action then cells
      else
        { cells with conflicts := cells.conflicts ++ [⟨state, c.lookahead, kept, c.action⟩] }

def settleClaims (state : StateId) (cs : List Claim) : Cells :=
  cs.foldl (Cells.claim state) ⟨∅, []⟩

def gotoEntries (s : State) : OrderedMap NonterminalId StateId :=
  ⟨s.transitions.entries.filterMap fun (x, next) =>
    match x with
    | .terminal _ => none
    | .nonterminal n => some (n, next)⟩

/-! ## Tables -/

def Augmented.table (a : Augmented) : ParsingTable :=
  let follow := a.grammar.followSets a.grammar.firstSets
  let filled := a.automaton.states.zipIdx.map fun (s, id) =>
    (settleClaims id (claims a follow s), gotoEntries s)
  { grammar := a
    rows := filled.map fun (cells, gotos) => ⟨cells.actions, gotos⟩
    conflicts := filled.flatMap fun (cells, _) => cells.conflicts }

/-- What to do about conflicts: keep the first action, or refuse the grammar. -/
inductive ConflictPolicy where
  | warn
  | deny
deriving DecidableEq, Repr, Inhabited

inductive TableError where
  /-- The grammar cannot be augmented. -/
  | grammar (e : DefinitionError)
  /-- These nonterminals derive themselves. -/
  | cyclic (names : List String)
  | conflicts (cs : List Conflict)
deriving DecidableEq, Repr

def TableError.message : TableError → String
  | .grammar _ => "failed to augment the grammar"
  | .cyclic names => "cyclic derivation of " ++ ", ".intercalate names
  | .conflicts cs => s!"the grammar is not SLR(1): {cs.length} conflict(s) detected"

/-- The names of the nonterminals that derive themselves. -/
def Augmented.cyclicNames (a : Augmented) : List String :=
  (cyclicNonterminals a.grammar a.grammar.firstSets).map a.grammar.nonterminalName

def Grammar.table (policy : ConflictPolicy) (g : Grammar) : Except TableError ParsingTable :=
  match g.augment with
  | .error e => .error (.grammar e)
  | .ok a =>
      if a.cyclicNames ≠ [] then .error (.cyclic a.cyclicNames)
      else
        let t := a.table
        if policy = .deny ∧ t.conflicts ≠ [] then .error (.conflicts t.conflicts)
        else .ok t

end ShiftReduce
