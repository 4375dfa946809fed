import Mathlib.Data.List.Destutter
import ShiftReduce.Automaton.Closure
import ShiftReduce.Search.DepthFirst

/-! # The search for a closure

`closure` asks all rules of the grammar for each item, and keeps its items in order by inserting
them. Here the rules are collected by their heads first, a search with a stack finds the items, and
they are put in order once all of them have been found.

- `RulesByHead`: the rules that have been collected; `Grammar.rulesByHead` collects them.
- `ItemSet.collect`: sorts items and drops those that are repeated.
- `ItemSet.search`: looks for an item by halving the set.
- `Closes`: the search from some items, without a bound on its steps, and the set of what it finds.
-/

namespace ShiftReduce

/-! ## Rules by their heads -/

abbrev RulesByHead := OrderedMap NonterminalId (List RuleId)

namespace RulesByHead

def rulesOf (index : RulesByHead) (n : NonterminalId) : List RuleId := (index.find? n).getD []

def add (index : RulesByHead) (e : RuleId × Rule) : RulesByHead :=
  index.insert e.2.head (index.rulesOf e.2.head ++ [e.1])

/-- The rules of the nonterminal after the marker, each with its marker at the beginning. -/
def predictions (index : RulesByHead) (g : Grammar) (x : Item) : List Item :=
  match x.nextSymbol? g with
  | some (.nonterminal n) => (index.rulesOf n).map (⟨·, 0⟩)
  | _ => []

end RulesByHead

def Grammar.rulesByHead (g : Grammar) : RulesByHead := g.rules.entries.foldl RulesByHead.add ∅

/-! ## Sorted sets -/

def Item.notAfter (x y : Item) : Bool := !y.before x

namespace ItemSet

/-- Sorts the items; then those that are equal to the one before them are dropped. -/
def collect (xs : List Item) : ItemSet := ⟨(xs.mergeSort Item.notAfter).destutter (· ≠ ·)⟩

/-- The position of the last one of `size` items from `base` on that does not come after `x`, or
`base` if all do. Of two halves the upper one is kept unless it begins after `x`. -/
def bisect (items : List Item) (x : Item) (base size : Nat) : Nat :=
  if size ≤ 1 then base
  else
    let half := size / 2
    match items[base + half]? with
    | none => base
    | some y => bisect items x (if x.before y then base else base + half) (size - half)
termination_by size

def search (s : ItemSet) (x : Item) : Bool :=
  s.items[bisect s.items x 0 s.items.length]? == some x

end ItemSet

/-! ## Closures -/

/-- The search from the items comes to an end, and the set holds what it has found. -/
def Closes (g : Grammar) (xs : List Item) (set : ItemSet) : Prop :=
  ∃ found, Searches (g.rulesByHead.predictions g) xs found ∧ ItemSet.collect found = set

end ShiftReduce
