import ShiftReduce.Grammar.Cyclic

/-! # The search for cycles

`cyclicNonterminals` asks what unit steps reach. Here the unit steps are collected first, rule by
rule, and then a search in depth goes out from each nonterminal and ends as soon as it is back.

- `UnitEdges`: the unit steps that have been collected; `Grammar.unitEdges` collects them.
- `ComesBack`: the search from one nonterminal, without a bound on its steps.
-/

namespace ShiftReduce

abbrev UnitEdges := OrderedMap NonterminalId (List NonterminalId)

namespace UnitEdges

/-- The ends of the edges from `n`, in the order in which they were found, each once. -/
def ends (edges : UnitEdges) (n : NonterminalId) : List NonterminalId :=
  (edges.find? n).getD []

def add (edges : UnitEdges) (e : NonterminalId × NonterminalId) : UnitEdges :=
  edges.insert e.1 (addNew (edges.ends e.1) [e.2])

end UnitEdges

/-- Goes once through the rules, and from left to right through the body of each. -/
def Grammar.unitEdges (g : Grammar) (first : FirstSets) : UnitEdges :=
  (g.rules.values.flatMap fun r =>
    (soleNonterminals first r.body).map fun n => (r.head, n)).foldl UnitEdges.add ∅

/-- The search for `target` comes to an end, and tells whether it has been found. Of the pending
nonterminals the one that was added last is looked at first. -/
inductive ComesBack (edges : UnitEdges) (target : NonterminalId) :
    (visited pending : List NonterminalId) → Bool → Prop where
  | exhausted {visited : List NonterminalId} : ComesBack edges target visited [] false
  | found {visited pending : List NonterminalId} :
      ComesBack edges target visited (target :: pending) true
  | again {visited pending : List NonterminalId} {n : NonterminalId} {result : Bool}
      (other : n ≠ target) (seen : n ∈ visited)
      (rest : ComesBack edges target visited pending result) :
      ComesBack edges target visited (n :: pending) result
  | visit {visited pending : List NonterminalId} {n : NonterminalId} {result : Bool}
      (other : n ≠ target) (new : n ∉ visited)
      (rest : ComesBack edges target (visited ++ [n]) ((edges.ends n).reverse ++ pending)
        result) :
      ComesBack edges target visited (n :: pending) result

end ShiftReduce
