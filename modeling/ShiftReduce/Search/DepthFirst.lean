import ShiftReduce.Search.BreadthFirst

/-! # Search with a stack

What `reachable` finds, found in another order: of the points that are still to be visited, the one
that was found last comes first.

- `discover`: points are found; new ones are put on the stack.
- `Visits`, `Searches`: the search, without a bound on its visits.
- `exists_visits`: it comes to an end, since each visit takes one point from the stack and each
  point is put there once.
- `mem_of_searches`: what it finds is what can be reached.
-/

namespace ShiftReduce

variable {α : Type} [DecidableEq α]

/-- The points that have been found, with the further ones, and the stack of those that are
pending, with the new ones on top. -/
def discover (found pending : List α) : List α → List α × List α
  | [] => (found, pending)
  | x :: xs =>
      if x ∈ found then discover found pending xs
      else discover (found ++ [x]) (x :: pending) xs

/-- The topmost pending point is visited until none is left. Then these points are found. -/
inductive Visits (next : α → List α) : (found pending : List α) → List α → Prop where
  | done {found : List α} : Visits next found [] found
  | visit {found pending result : List α} {x : α}
      (rest : Visits next (discover found pending (next x)).1 (discover found pending (next x)).2
        result) :
      Visits next found (x :: pending) result

/-- The search from some points comes to an end, and finds these. -/
def Searches (next : α → List α) (start result : List α) : Prop :=
  Visits next (discover [] [] start).1 (discover [] [] start).2 result

variable {next : α → List α} {found pending result xs : List α}

/-! ## Discoveries -/

theorem discover_fst (found pending xs : List α) :
    (discover found pending xs).1 = addNew found xs := by
  induction xs generalizing found pending with
  | nil => rfl
  | cons x xs ih =>
      rw [discover, addNew]
      split
      · exact ih found pending
      · exact ih (found ++ [x]) (x :: pending)

theorem mem_discover_snd {z : α} :
    z ∈ (discover found pending xs).2 ↔ z ∈ pending ∨ z ∈ xs ∧ z ∉ found := by
  induction xs generalizing found pending with
  | nil => simp [discover]
  | cons x xs ih =>
      rw [discover]
      by_cases hx : x ∈ found
      · rw [if_pos hx, ih, List.mem_cons]
        constructor
        · rintro (h | ⟨h, hnew⟩)
          · exact .inl h
          · exact .inr ⟨.inr h, hnew⟩
        · rintro (h | ⟨rfl | h, hnew⟩)
          · exact .inl h
          · exact absurd hx hnew
          · exact .inr ⟨h, hnew⟩
      · rw [if_neg hx, ih, List.mem_cons, List.mem_cons, List.mem_append, List.mem_singleton]
        by_cases hz : z = x
        · subst hz
          simp [hx]
        · simp [hz]

/-- Each new point is put on the stack once. -/
theorem length_discover (found pending xs : List α) :
    (discover found pending xs).2.length + found.length =
      (discover found pending xs).1.length + pending.length := by
  induction xs generalizing found pending with
  | nil => exact Nat.add_comm _ _
  | cons x xs ih =>
      rw [discover]
      split
      · exact ih found pending
      · have h := ih (found ++ [x]) (x :: pending)
        rw [List.length_append, List.length_singleton, List.length_cons] at h
        omega

/-! ## The end of a search -/

/-- The list `U` holds all that a search can find. A visit takes one point from the stack, and what
it puts there is found for the first time. -/
theorem exists_visits {U : List α} (hU : ∀ x ∈ U, ∀ y ∈ next x, y ∈ U) (hnodup : found.Nodup)
    (hfound : ∀ x ∈ found, x ∈ U) (hpending : ∀ x ∈ pending, x ∈ U) :
    ∃ result, Visits next found pending result := by
  induction hleft : U.length - found.length + pending.length generalizing found pending with
  | zero =>
      obtain rfl : pending = [] := List.length_eq_zero_iff.mp (by omega)
      exact ⟨found, .done⟩
  | succ left ih =>
      cases pending with
      | nil => exact ⟨found, .done⟩
      | cons x pending =>
          rw [List.forall_mem_cons] at hpending
          have hnodup' : (discover found pending (next x)).1.Nodup := by
            rw [discover_fst]
            exact nodup_addNew hnodup
          have hfound' : ∀ y ∈ (discover found pending (next x)).1, y ∈ U := by
            intro y hy
            rw [discover_fst, mem_addNew] at hy
            rcases hy with hy | hy
            · exact hfound y hy
            · exact hU x hpending.1 y hy
          have hpending' : ∀ y ∈ (discover found pending (next x)).2, y ∈ U := by
            intro y hy
            rcases mem_discover_snd.mp hy with hy | ⟨hy, -⟩
            · exact hpending.2 y hy
            · exact hU x hpending.1 y hy
          have hlength := length_discover found pending (next x)
          have hbound := (hnodup.subperm hfound).length_le
          have hbound' := (hnodup'.subperm hfound').length_le
          rw [List.length_cons] at hleft
          obtain ⟨result, h⟩ := ih hnodup' hfound' hpending' (by omega)
          exact ⟨result, .visit h⟩

theorem exists_searches {U start : List α} (hU : ∀ x ∈ U, ∀ y ∈ next x, y ∈ U)
    (hstart : ∀ x ∈ start, x ∈ U) : ∃ result, Searches next start result := by
  apply exists_visits hU
  · rw [discover_fst]
    exact nodup_addNew List.nodup_nil
  · intro x hx
    rw [discover_fst, mem_addNew] at hx
    exact hstart x (hx.resolve_left List.not_mem_nil)
  · intro x hx
    rcases mem_discover_snd.mp hx with hx | ⟨hx, -⟩
    · exact absurd hx List.not_mem_nil
    · exact hstart x hx

/-! ## What a search finds -/

theorem Visits.sound (h : Visits next found pending result) {z : α} (hz : z ∈ result) :
    z ∈ found ∨ ∃ y ∈ pending, Reaches next y z := by
  induction h with
  | done => exact .inl hz
  | @visit found pending result x _ ih =>
      rcases ih hz with hz | ⟨y, hy, hreach⟩
      · rw [discover_fst, mem_addNew] at hz
        rcases hz with hz | hz
        · exact .inl hz
        · exact .inr ⟨x, List.mem_cons_self, .single hz⟩
      · rcases mem_discover_snd.mp hy with hy | ⟨hy, -⟩
        · exact .inr ⟨y, List.mem_cons_of_mem x hy, hreach⟩
        · exact .inr ⟨x, List.mem_cons_self, hreach.head hy⟩

theorem Visits.subset (h : Visits next found pending result) : found ⊆ result := by
  induction h with
  | done => exact List.Subset.refl _
  | visit _ ih =>
      rw [discover_fst] at ih
      exact List.Subset.trans (prefix_addNew _ _).subset ih

/-- A point that is not pending has been visited, so its successors have been found. -/
theorem Visits.closed (h : Visits next found pending result)
    (hvisited : ∀ y ∈ found, y ∈ pending ∨ ∀ z ∈ next y, z ∈ found) :
    ∀ y ∈ result, ∀ z ∈ next y, z ∈ result := by
  induction h with
  | done => exact fun y hy => (hvisited y hy).resolve_left List.not_mem_nil
  | @visit found pending result x _ ih =>
      apply ih
      intro y hy
      rw [discover_fst] at hy ⊢
      by_cases hold : y ∈ found
      · rcases hvisited y hold with hpending | hnext
        · rcases List.mem_cons.mp hpending with rfl | hpending
          · exact .inr fun z hz => mem_addNew.mpr (.inr hz)
          · exact .inl (mem_discover_snd.mpr (.inl hpending))
        · exact .inr fun z hz => mem_addNew.mpr (.inl (hnext z hz))
      · have hnew := (mem_addNew.mp hy).resolve_left hold
        exact .inl (mem_discover_snd.mpr (.inr ⟨hnew, hold⟩))

theorem mem_of_searches {start : List α} (h : Searches next start result) {z : α} :
    z ∈ result ↔ ∃ y ∈ start, Reaches next y z := by
  have hfound : ∀ y, y ∈ (discover [] [] start).1 ↔ y ∈ start := by
    simp [discover_fst, mem_addNew]
  have hpending : ∀ y, y ∈ (discover [] [] start).2 ↔ y ∈ start := by
    simp [mem_discover_snd]
  constructor
  · intro hz
    rcases Visits.sound h hz with hz | ⟨y, hy, hreach⟩
    · exact ⟨z, (hfound z).mp hz, .refl⟩
    · exact ⟨y, (hpending y).mp hy, hreach⟩
  · rintro ⟨y, hy, hreach⟩
    have hclosed := Visits.closed h
      fun y hy => .inl ((hpending y).mpr ((hfound y).mp hy))
    exact hreach.mem_of_closed hclosed (Visits.subset h ((hfound y).mpr hy))

end ShiftReduce
