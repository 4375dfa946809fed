import ShiftReduce.Automaton.Closure
import ShiftReduce.Grammar.Augmented

/-! # The canonical collection

- `Automaton`: states, each a set of items with its transitions; a state is
  known by its place in the list.
- `Augmented.automaton`: the sets of items that gotos lead to from the closure
  of `S' -> . S`, in breadth-first order.
-/

namespace ShiftReduce

/-- The number of a state. It has no bound here; where 32 bits are kept of it, numbers repeat from
the state 2 ^ 32 on, so automata with at most that many states are meant. -/
abbrev StateId := Nat

structure State where
  items : ItemSet
  /-- Where each symbol that stands after a marker leads to. -/
  transitions : OrderedMap Symbol StateId
deriving DecidableEq, Repr

structure Automaton where
  states : List State
deriving DecidableEq, Repr

namespace Automaton

/-- Parsing starts in the first state. -/
def start : StateId := 0

def state? (a : Automaton) (s : StateId) : Option State := a.states[s]?

end Automaton

/-- The symbols after the markers, in the order of their first occurrence. -/
def nextSymbols (g : Grammar) (set : ItemSet) : List Symbol :=
  addNew [] (set.items.filterMap (·.nextSymbol? g))

theorem nodup_nextSymbols (g : Grammar) (set : ItemSet) : (nextSymbols g set).Nodup :=
  nodup_addNew List.nodup_nil

/-- The sets of items that one symbol leads to. -/
def successors (g : Grammar) (set : ItemSet) : List ItemSet :=
  (nextSymbols g set).map (goto g set)

/-- How many items there are with the marker within or at the end of the body. -/
def itemCount (g : Grammar) : Nat :=
  g.rules.values.foldr (fun r n => r.body.length + 1 + n) 0

namespace Augmented

def startItems (a : Augmented) : ItemSet := closure a.grammar [⟨a.acceptRule, 0⟩]

/-- The sets of items of the states; there are no more than sets of items. -/
def itemSets (a : Augmented) : List ItemSet :=
  reachable (successors a.grammar) (Nat.pow 2 (itemCount a.grammar)) [a.startItems]

/-- The transitions of a set, among numbered sets. -/
def transitions (g : Grammar) (sets : List ItemSet) (set : ItemSet) :
    OrderedMap Symbol StateId :=
  ⟨(nextSymbols g set).map fun s => (s, sets.idxOf (goto g set s))⟩

def automaton (a : Augmented) : Automaton :=
  let sets := a.itemSets
  ⟨sets.map fun set => ⟨set, transitions a.grammar sets set⟩⟩

end Augmented

end ShiftReduce
