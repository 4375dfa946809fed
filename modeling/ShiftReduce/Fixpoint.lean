/-! # Iteration until nothing changes

- `settle`: applies a step again and again until it leaves its argument alone,
  and counts the applications, the last one included.
- `Settles`: the same without a bound, as a relation; `settles_settle` says when the
  bound does not matter.
- `Grows`: nothing changes, or a size goes up. A row of such changes that ends
  where it began has changed nothing on the way.

The bound is a number of applications that suffices; a caller computes it from
the size of what can still grow.
-/

namespace ShiftReduce

/-! ## Changes that make something grow -/

section

variable {α ι : Type} {size : α → Nat} {a b c : α}

def Grows (size : α → Nat) (a b : α) : Prop := b = a ∨ size a < size b

theorem Grows.refl (a : α) : Grows size a a := .inl rfl

theorem Grows.trans (h : Grows size a b) (h' : Grows size b c) : Grows size a c := by
  rcases h with rfl | h
  · exact h'
  · rcases h' with rfl | h'
    · exact .inr h
    · exact .inr (Nat.lt_trans h h')

theorem Grows.lt_of_ne (h : Grows size a b) (hne : b ≠ a) : size a < size b :=
  h.resolve_left hne

theorem Grows.fixed (h : Grows size a b) (h' : Grows size b c) (hca : c = a) : b = a := by
  subst hca
  rcases h with hb | h
  · exact hb
  · rcases h' with hc | h'
    · exact hc.symm
    · exact absurd h' (Nat.lt_asymm h)

variable {Kept : α → Prop} {f : α → ι → α} {xs : List ι}

theorem foldl_kept (keep : ∀ a, ∀ i ∈ xs, Kept a → Kept (f a i)) (ha : Kept a) :
    Kept (xs.foldl f a) := by
  induction xs generalizing a with
  | nil => exact ha
  | cons x xs ih =>
      exact ih (fun a i hi => keep a i (List.mem_cons_of_mem x hi))
        (keep a x List.mem_cons_self ha)

theorem foldl_grows (keep : ∀ a, ∀ i ∈ xs, Kept a → Kept (f a i))
    (grow : ∀ a, ∀ i ∈ xs, Kept a → Grows size a (f a i)) (ha : Kept a) :
    Grows size a (xs.foldl f a) := by
  induction xs generalizing a with
  | nil => exact .refl a
  | cons x xs ih =>
      have h1 := grow a x List.mem_cons_self ha
      exact h1.trans (ih (fun a i hi => keep a i (List.mem_cons_of_mem x hi))
        (fun a i hi => grow a i (List.mem_cons_of_mem x hi))
        (keep a x List.mem_cons_self ha))

/-- If a whole row of changes changes nothing, no single one does. -/
theorem foldl_fixed (keep : ∀ a, ∀ i ∈ xs, Kept a → Kept (f a i))
    (grow : ∀ a, ∀ i ∈ xs, Kept a → Grows size a (f a i)) (ha : Kept a)
    (hfix : xs.foldl f a = a) : ∀ i ∈ xs, f a i = a := by
  induction xs with
  | nil => simp
  | cons x xs ih =>
      have keep' := fun a i hi => keep a i (List.mem_cons_of_mem x hi)
      have grow' := fun a i hi => grow a i (List.mem_cons_of_mem x hi)
      have hx : f a x = a :=
        (grow a x List.mem_cons_self ha).fixed
          (foldl_grows keep' grow' (keep a x List.mem_cons_self ha)) hfix
      rw [List.foldl_cons, hx] at hfix
      intro i hi
      rcases List.mem_cons.mp hi with rfl | hi
      · exact hx
      · exact ih keep' grow' hfix i hi

end

/-! ## Iteration without a bound -/

section

variable {α : Type} {step : α → α} {a b : α} {k : Nat}

/-- The iteration from `a` comes to an end at `b`, after `k` applications. -/
inductive Settles (step : α → α) : α → α → Nat → Prop where
  | fixed {a : α} (h : step a = a) : Settles step a a 1
  | next {a b : α} {k : Nat} (h : step a ≠ a) (rest : Settles step (step a) b k) :
      Settles step a b (k + 1)

theorem Settles.step_eq (h : Settles step a b k) : step b = b := by
  induction h with
  | fixed h => exact h
  | next _ _ ih => exact ih

theorem Settles.kept {Kept : α → Prop} (keep : ∀ a, Kept a → Kept (step a))
    (h : Settles step a b k) (ha : Kept a) : Kept b := by
  induction h with
  | fixed _ => exact ha
  | next _ _ ih => exact ih (keep _ ha)

end

/-! ## Iteration -/

variable {α : Type} [DecidableEq α]

/-- The value at which `step` stops changing, and how often `step` was applied. -/
def settle (step : α → α) : (bound : Nat) → α → α × Nat
  | 0, a => (a, 0)
  | n + 1, a =>
      let b := step a
      if b = a then (a, 1)
      else
        let (c, k) := settle step n b
        (c, k + 1)

section

variable {step : α → α} {Kept : α → Prop} (size : α → Nat) (limit : Nat)
  (keep : ∀ a, Kept a → Kept (step a)) (grow : ∀ a, Kept a → Grows size a (step a))
  (bounded : ∀ a, Kept a → size a ≤ limit) {bound : Nat} {a : α} (ha : Kept a)
  (enough : limit < bound + size a)

include keep grow bounded ha enough

/-- If each change makes something grow that is at most `limit`, the iteration comes to its
end before the bound is used up. -/
theorem settles_settle :
    Settles step a (settle step bound a).1 (settle step bound a).2 := by
  induction bound generalizing a with
  | zero =>
      have h := bounded a ha
      omega
  | succ n ih =>
      rw [settle]
      by_cases h : step a = a
      · simp only [h, if_true]
        exact .fixed h
      · simp only [h, if_false]
        have hlt := (grow a ha).lt_of_ne h
        exact .next h (ih (keep a ha) (by omega))

end

end ShiftReduce
