import ShiftReduce.Grammar.First
import ShiftReduce.Search.Basic

/-! # Cyclic nonterminals

- `unitSteps`: the nonterminals that a nonterminal derives alone, by one rule,
  all other symbols of the body being nullable.
- `cyclicNonterminals`: the nonterminals that derive themselves.
-/

namespace ShiftReduce

/-- The nonterminal at place `i` of a body, if all other symbols are nullable. -/
def soleNonterminal? (first : FirstSets) (body : List Symbol) (i : Nat) :
    Option NonterminalId :=
  match body[i]? with
  | some (.nonterminal n) =>
      if (body.eraseIdx i).all first.isNullable then some n else none
  | _ => none

def soleNonterminals (first : FirstSets) (body : List Symbol) : List NonterminalId :=
  (List.range body.length).filterMap (soleNonterminal? first body)

def unitSteps (g : Grammar) (first : FirstSets) (n : NonterminalId) : List NonterminalId :=
  (g.rulesOf n).flatMap fun r => soleNonterminals first r.body

/-- The nonterminals that derive themselves, in declaration order. -/
def cyclicNonterminals (g : Grammar) (first : FirstSets) : List NonterminalId :=
  let steps := unitSteps g first
  g.nonterminals.keys.filter fun n =>
    (reachable steps g.nonterminals.size (steps n)).contains n

end ShiftReduce
