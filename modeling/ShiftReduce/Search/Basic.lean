/-! # Breadth-first search

What can be reached from some starting points by a successor function, listed
in the order of discovery.

- `addNew`: a list extended by the members of another one that it lacks.
- `explore`: the search; the list of what has been seen is its own queue.
- `reachable`: the search from a list of starting points.

`explore` visits one member of the list a step, so it is complete once the
number of steps is at least the number of points that can be reached.
-/

namespace ShiftReduce

variable {α : Type} [DecidableEq α]

/-- Appends the members of the second list that are not yet there, each once. -/
def addNew (seen : List α) : List α → List α
  | [] => seen
  | x :: xs => addNew (if x ∈ seen then seen else seen ++ [x]) xs

/-- Visits the members of `seen` from position `i` on, at most `n` of them. -/
def explore (next : α → List α) : (n : Nat) → (i : Nat) → List α → List α
  | 0, _, seen => seen
  | n + 1, i, seen =>
      match seen[i]? with
      | none => seen
      | some x => explore next n (i + 1) (addNew seen (next x))

/-- The points that `next` reaches from `start` within `n` visits. -/
def reachable (next : α → List α) (n : Nat) (start : List α) : List α :=
  explore next n 0 (addNew [] start)

/-! ## Members and order -/

theorem position_unique {β : Type} {xs : List β} (h : xs.Nodup) {i j : Nat} {x : β}
    (hi : xs[i]? = some x) (hj : xs[j]? = some x) : i = j := by
  have hlt := (List.getElem?_eq_some_iff.mp hi).1
  exact (List.getElem?_inj hlt h).mp (hi.trans hj.symm)

theorem mem_addNew {x : α} {seen ys : List α} :
    x ∈ addNew seen ys ↔ x ∈ seen ∨ x ∈ ys := by
  induction ys generalizing seen with
  | nil => simp [addNew]
  | cons y ys ih =>
      rw [addNew, ih]
      by_cases h : y ∈ seen
      · rw [if_pos h, List.mem_cons]
        constructor
        · rintro (h1 | h1)
          · exact .inl h1
          · exact .inr (.inr h1)
        · rintro (h1 | rfl | h1)
          · exact .inl h1
          · exact .inl h
          · exact .inr h1
      · rw [if_neg h, List.mem_append, List.mem_singleton, List.mem_cons, or_assoc]

theorem nodup_addNew {seen ys : List α} (h : seen.Nodup) : (addNew seen ys).Nodup := by
  induction ys generalizing seen with
  | nil => exact h
  | cons y ys ih =>
      rw [addNew]
      by_cases hy : y ∈ seen
      · rw [if_pos hy]; exact ih h
      · rw [if_neg hy]
        refine ih (List.nodup_append.mpr ⟨h, by simp, ?_⟩)
        intro a ha b hb
        rw [List.mem_singleton] at hb
        exact fun hab => hy (hb ▸ hab ▸ ha)

end ShiftReduce
