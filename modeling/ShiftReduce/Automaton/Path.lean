import ShiftReduce.Automaton.Collection

/-! # Paths of an automaton

- `Automaton.next?`: the transition from a state on a symbol.
- `Automaton.walk?`: the state at the end of a path that spells some symbols.
- `Automaton.Passes`: all states of a path, with the symbols that it spells.
- `Automaton.IsPathTo`: such a path from the first state to another one.
-/

namespace ShiftReduce

namespace Automaton

def next? (a : Automaton) (s : StateId) (x : Symbol) : Option StateId :=
  (a.state? s).bind (·.transitions.find? x)

def walk? (a : Automaton) (s : StateId) : List Symbol → Option StateId
  | [] => some s
  | x :: xs =>
      match a.next? s x with
      | some s => walk? a s xs
      | none => none

theorem walk?_append (a : Automaton) (s : StateId) (xs ys : List Symbol) :
    a.walk? s (xs ++ ys) = (a.walk? s xs).bind fun s => a.walk? s ys := by
  induction xs generalizing s with
  | nil => rfl
  | cons x xs ih =>
      rw [List.cons_append, walk?, walk?]
      cases a.next? s x with
      | none => rfl
      | some s => exact ih s

/-- A path, told by its states, and the symbol of the transition between each two of them. -/
inductive Passes (a : Automaton) : List StateId → List Symbol → Prop where
  | single (s : StateId) : Passes a [s] []
  | cons {s s' : StateId} {ss : List StateId} {X : Symbol} {Xs : List Symbol}
      (next : a.next? s X = some s') (rest : Passes a (s' :: ss) Xs) :
      Passes a (s :: s' :: ss) (X :: Xs)

/-- The path leads from the first state to `s`. -/
structure IsPathTo (a : Automaton) (s : StateId) (ss : List StateId) (Xs : List Symbol) :
    Prop where
  passes : a.Passes ss Xs
  first : ss.head? = some start
  last : ss.getLast? = some s

/-- A path goes on from its last state. -/
theorem Passes.snoc {a : Automaton} {ss : List StateId} {s s' : StateId} {X : Symbol}
    {Xs : List Symbol} (h : a.Passes (ss ++ [s]) Xs) (next : a.next? s X = some s') :
    a.Passes (ss ++ [s] ++ [s']) (Xs ++ [X]) := by
  induction ss generalizing Xs with
  | nil =>
      cases h
      exact .cons next (.single s')
  | cons u us ih =>
      cases us with
      | nil =>
          cases h with
          | cons first rest => exact .cons first (ih rest)
      | cons v vs =>
          cases h with
          | cons first rest => exact .cons first (ih rest)

end Automaton

end ShiftReduce
