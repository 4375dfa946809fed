import ShiftReduce.Automaton.Collection

/-! # The collection, one set after the other

`Augmented.automaton` lists the sets first and looks the transitions up in the list. Here
both are found at once, by a loop over three structures.

- `Worklist`: the sets with their numbers, those that are still to be visited, and the
  finished states.
- `Worklist.number`: the number of a set; a new set gets the next one.
- `Worklist.visit`: one round of the loop, which finishes a state.
- `Worklist.Completes`: the loop, without a bound on its rounds.
- `Automaton.numbered`: the states of an automaton with their numbers.
-/

namespace ShiftReduce

structure Worklist where
  /-- The number of each set that has been found. -/
  index : OrderedMap ItemSet StateId
  /-- The sets without a finished state, in the order in which they were found. -/
  pending : List (StateId × ItemSet)
  states : OrderedMap StateId State
deriving DecidableEq, Repr

namespace Worklist

/-- Only the closure of `S' -> . S` has been found. -/
def initial (a : Augmented) : Worklist where
  index := (∅ : OrderedMap ItemSet StateId).insert a.startItems Automaton.start
  pending := [(Automaton.start, a.startItems)]
  states := ∅

/-- The number of a set. A new set is numbered and put at the end of those to be visited. -/
def number (w : Worklist) (set : ItemSet) : StateId × Worklist :=
  match w.index.find? set with
  | some id => (id, w)
  | none =>
      let id := w.index.size
      (id, { w with
        index := w.index.insert set id
        pending := w.pending ++ [(id, set)] })

/-- The transitions of a set, those on the symbols being added to the ones that are there. -/
def addTransitions (g : Grammar) (set : ItemSet) :
    List Symbol → OrderedMap Symbol StateId → Worklist → OrderedMap Symbol StateId × Worklist
  | [], transitions, w => (transitions, w)
  | X :: Xs, transitions, w =>
      let (id, w) := w.number (goto g set X)
      addTransitions g set Xs (transitions.insert X id) w

/-- Finishes the state of a set. -/
def visit (g : Grammar) (id : StateId) (set : ItemSet) (w : Worklist) : Worklist :=
  let (transitions, w) := addTransitions g set (nextSymbols g set) ∅ w
  { w with states := w.states.insert id ⟨set, transitions⟩ }

/-- The loop comes to an end: the first set is visited until none is left. -/
inductive Completes (g : Grammar) : Worklist → Worklist → Prop where
  | done {w : Worklist} (h : w.pending = []) : Completes g w w
  | visit {w w' : Worklist} {id : StateId} {set : ItemSet} {pending : List (StateId × ItemSet)}
      (h : w.pending = (id, set) :: pending)
      (rest : Completes g (visit g id set { w with pending := pending }) w') :
      Completes g w w'

end Worklist

def Automaton.numbered (a : Automaton) : OrderedMap StateId State :=
  ⟨a.states.zipIdx.map Prod.swap⟩

end ShiftReduce
