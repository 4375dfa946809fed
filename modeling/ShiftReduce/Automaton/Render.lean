import ShiftReduce.Automaton.Collection
import ShiftReduce.Grammar.Render

/-! # The text of an automaton

- `stateText`: a state as `S#007`.
- `Item.render`: a rule with a dot for the marker.
- `ItemSet.render`, `Automaton.render`: items and transitions, one a line.
-/

namespace ShiftReduce

/-- The number with at least three digits. -/
def stateText (s : StateId) : String :=
  let digits := toString s
  "S#" ++ "".pushn '0' (3 - digits.length) ++ digits

namespace Item

/-- The symbols of a body, with a dot where `marker` symbols have passed. -/
def bodyText (g : Grammar) (marker : Nat) (body : List Symbol) : String :=
  let names := body.map g.symbolName
  let parts := names.take marker ++ (if marker ≤ names.length then ["."] else []) ++
    names.drop marker
  String.join (parts.map (" " ++ ·))

def render (g : Grammar) (x : Item) : String :=
  match g.rule? x.rule with
  | some r => g.nonterminalName r.head ++ " ->" ++ bodyText g x.marker.toNat r.body
  | none => ""

end Item

def ItemSet.lines (g : Grammar) (set : ItemSet) : List String :=
  set.items.map fun x => "- " ++ x.render g

def ItemSet.render (g : Grammar) (set : ItemSet) : String := Text.lines (set.lines g)

namespace State

def transitionLines (g : Grammar) (s : State) : List String :=
  s.transitions.entries.map fun (x, next) => s!"- {g.symbolName x} => {stateText next}"

def lines (g : Grammar) (id : StateId) (s : State) : List String :=
  let transitions := s.transitionLines g
  [s!"#### State {stateText id}", "## items:"] ++ s.items.lines g ++
  (if transitions.isEmpty then [] else "## transitions:" :: transitions)

end State

/-- The states in order, with a blank line between each two. -/
def Automaton.render (g : Grammar) (a : Automaton) : String :=
  "\n".intercalate (a.states.zipIdx.map fun (s, id) => Text.lines (s.lines g id))

end ShiftReduce
