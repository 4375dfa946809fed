import ShiftReduce.Automaton.Item
import ShiftReduce.Search.Basic

/-! # Closure and goto

- `closure`: some items and, for each nonterminal after a marker, its rules with
  the marker at the beginning.
- `goto`, `gotosAlong`: the closure of the items that a symbol leads to, and the
  same for one symbol after the other.
-/

namespace ShiftReduce

/-- The rules of the nonterminal after the marker, each with its marker at the
beginning. -/
def predictions (g : Grammar) (x : Item) : List Item :=
  match x.nextSymbol? g with
  | some (.nonterminal n) =>
      (g.rules.entries.filter (·.2.head = n)).map fun e => ⟨e.1, 0⟩
  | _ => []

/-- No more than these items and one for each rule are ever in the closure. -/
def closure (g : Grammar) (xs : List Item) : ItemSet :=
  .ofList (reachable (predictions g) (xs.length + g.rules.size) xs)

/-- The items with `s` after the marker, the marker moved over it. -/
def advanceOver (g : Grammar) (xs : List Item) (s : Symbol) : List Item :=
  (xs.filter fun x => x.nextSymbol? g = some s).map (·.advance)

def goto (g : Grammar) (set : ItemSet) (s : Symbol) : ItemSet :=
  closure g (advanceOver g set.items s)

/-- A set and those that the symbols lead to from it, one after the other. -/
def gotosAlong (g : Grammar) (set : ItemSet) : List Symbol → List ItemSet
  | [] => [set]
  | s :: ss => set :: gotosAlong g (goto g set s) ss

end ShiftReduce
