import ShiftReduce.Grammar.First

/-! # FOLLOW sets

- `FollowSets`: for each nonterminal, the terminals that can come right after
  it; the end of the input comes after the start symbol.
- `Grammar.followSets`: computes them.
-/

namespace ShiftReduce

structure FollowSets where
  sets : TerminalSets
  /-- How many passes were made, with the last one, which changed nothing. -/
  passes : Nat
deriving DecidableEq, Repr

namespace FollowSets

def get (f : FollowSets) (n : NonterminalId) : TerminalSet := f.sets.get n

end FollowSets

/-- What the rest of a body after `b` adds to FOLLOW of `b`. -/
def followAfter (first : FirstSets) (head b : NonterminalId) (rest : List Symbol)
    (m : TerminalSets) : TerminalSets :=
  let next := first.ofSymbols rest
  let m := m.grow b next.terminals
  if next.nullable && b ≠ head then m.grow b (m.get head) else m

/-- Goes through a body from left to right. -/
def followBody (first : FirstSets) (head : NonterminalId) :
    List Symbol → TerminalSets → TerminalSets
  | [], m => m
  | .terminal _ :: rest, m => followBody first head rest m
  | .nonterminal b :: rest, m =>
      followBody first head rest (followAfter first head b rest m)

/-- Goes once through the rules; each sees what those before it did. -/
def followPass (g : Grammar) (first : FirstSets) (m : TerminalSets) : TerminalSets :=
  g.rules.values.foldl (fun m r => followBody first r.head r.body m) m

/-- The sets in which only the start symbol is followed, by the end of the input. -/
def followSeed (g : Grammar) : TerminalSets :=
  TerminalSets.grow (.const g.nonterminals.keys ∅) g.start
    ((∅ : TerminalSet).insert endOfInput)

def Grammar.followSets (g : Grammar) (first : FirstSets) : FollowSets :=
  let (sets, passes) := settle (followPass g first) (growthBound g) (followSeed g)
  ⟨sets, passes⟩

end ShiftReduce
