import ShiftReduce.Engine.Event
import ShiftReduce.Grammar.Source
import ShiftReduce.Table.Build
import ShiftReduce.Table.Parse
import ShiftReduce.Table.Render
import ShiftReduce.Text.Quoted

/-! # What the library tells about its work

- `Notice`: something worth telling, with its `level` and its `message`.
- `sourceNotices`: what reading a grammar tells; `tableNotices`: what building
  its table tells; `parseNotices`: what parsing tells.

The notices of each stage are told in the order in which it comes upon them, and
no further than it gets.
-/

namespace ShiftReduce

inductive Level where
  | trace
  | debug
  | warn
deriving DecidableEq, Repr

inductive Notice where
  /-- A rule of this head is already there. -/
  | repeatedRule (head : String)
  | bareNonterminal (name : String)
  | firstSettled (rounds : Nat)
  | nullableCount (n : Nat)
  | followSettled (passes : Nat)
  | collection (states : Nat)
  | conflict (text : String)
  | table (states conflicts : Nat)
  | parse (event : ParseEvent StateId String)
deriving DecidableEq, Repr

def Notice.level : Notice → Level
  | .repeatedRule _ => .warn
  | .bareNonterminal _ => .warn
  | .firstSettled _ => .trace
  | .nullableCount _ => .debug
  | .followSettled _ => .trace
  | .collection _ => .debug
  | .conflict _ => .warn
  | .table _ _ => .debug
  | .parse (.rejected _ _) => .debug
  | .parse _ => .trace

def Notice.message : Notice → String
  | .repeatedRule head => s!"duplicate production rule for `{head}' is ignored"
  | .bareNonterminal name =>
      s!"the nonterminal `{name}' has no associated production rule"
  | .firstSettled rounds => s!"FIRST sets converged after {rounds} rounds"
  | .nullableCount n => s!"nullable nonterminals = {n}"
  | .followSettled passes => s!"FOLLOW sets converged after {passes} passes"
  | .collection states => s!"canonical collection: {states} states"
  | .conflict text => text
  | .table states conflicts => s!"parse table: {states} states, {conflicts} conflict(s)"
  | .parse event => event.message stateText Text.quote

/-! ## Reading a grammar -/

/-- The notices of a finished grammar. -/
def grammarNotices (g : Grammar) : List Notice :=
  g.bareNonterminals.map fun n => .bareNonterminal n.name

def alternativesNotices (d : Draft) (name : String) (head : NonterminalId) :
    List (List Char) → List Notice
  | [] => []
  | text :: texts =>
      match alternative d name text with
      | .error _ => []
      | .ok body =>
          match d.addRule head body with
          | .error _ => []
          | .ok (_, next) =>
              let rest := alternativesNotices next name head texts
              if (d.existingRule? head body).isSome then .repeatedRule name :: rest
              else rest

def ruleLineNotices (d : Draft) (text : List Char) : List Notice :=
  match ruleLine d text with
  | .error _ => []
  | .ok (name, head, texts) => alternativesNotices d name head texts

def ruleLinesNotices (d : Draft) : List SourceLine → List Notice
  | [] => []
  | line :: lines =>
      ruleLineNotices d line.text ++
      match addRuleLine d line.text with
      | .error _ => []
      | .ok d => ruleLinesNotices d lines

def linesNotices : List SourceLine → List Notice
  | nonterminals :: terminals :: lines =>
      match declareSymbols nonterminals terminals with
      | .error _ => []
      | .ok d => ruleLinesNotices d lines
  | _ => []

def sourceNotices (source : String) : List Notice :=
  linesNotices (significantLines source) ++
  match Grammar.ofSource source with
  | .error _ => []
  | .ok g => grammarNotices g

/-! ## Building a table -/

def tableNotices (policy : ConflictPolicy) (g : Grammar) : List Notice :=
  match g.augment with
  | .error _ => []
  | .ok a =>
      let first := a.grammar.firstSets
      let follow := a.grammar.followSets first
      grammarNotices a.grammar ++
      [.firstSettled first.rounds, .nullableCount first.nullable.length,
        .followSettled follow.passes] ++
      if a.cyclicNames ≠ [] then []
      else
        let t := a.table
        [.collection t.rows.length] ++
        t.conflicts.map (fun c => .conflict (c.render a.grammar)) ++
        if policy = .deny ∧ t.conflicts ≠ [] then []
        else [.table t.rows.length t.conflicts.length]

/-! ## Parsing -/

/-- What parsing tells within a number of steps. -/
def parseNotices (t : ParsingTable) (steps : Nat) (tokens : List String) : List Notice :=
  ((Configuration.initial t.parseTable tokens).events t.parseTable steps).map .parse

end ShiftReduce
