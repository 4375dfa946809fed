import Mathlib.Data.List.Nodup
import Mathlib.Data.List.Perm.Subperm
import Mathlib.Logic.Relation
import ShiftReduce.Search.Basic

/-! # What a search finds

- `explore_sound`: only points that can be reached.
- `explore_closed`: with enough visits, every successor of a point that is found.
- `mem_reachable_iff`: both together, for a search within a finite list that
  the successor function does not leave.
-/

namespace ShiftReduce

variable {α : Type} [DecidableEq α] {next : α → List α}

/-- `y` is reached from `x` by successors. -/
def Reaches (next : α → List α) : α → α → Prop :=
  Relation.ReflTransGen fun x y => y ∈ next x

theorem prefix_addNew (seen ys : List α) : seen <+: addNew seen ys := by
  induction ys generalizing seen with
  | nil => exact List.prefix_refl seen
  | cons y ys ih =>
      rw [addNew]
      split
      · exact ih seen
      · exact (List.prefix_append seen [y]).trans (ih (seen ++ [y]))

theorem prefix_explore (n i : Nat) (seen : List α) : seen <+: explore next n i seen := by
  induction n generalizing i seen with
  | zero => exact List.prefix_refl seen
  | succ n ih =>
      rw [explore]
      split
      · exact List.prefix_refl seen
      · exact (prefix_addNew seen _).trans (ih _ _)

theorem nodup_explore (n i : Nat) {seen : List α} (h : seen.Nodup) :
    (explore next n i seen).Nodup := by
  induction n generalizing i seen with
  | zero => exact h
  | succ n ih =>
      rw [explore]
      split
      · exact h
      · exact ih _ (nodup_addNew h)

theorem explore_sound {n i : Nat} {seen : List α} {x : α} (h : x ∈ explore next n i seen) :
    ∃ y ∈ seen, Reaches next y x := by
  induction n generalizing i seen with
  | zero => exact ⟨x, h, .refl⟩
  | succ n ih =>
      rw [explore] at h
      split at h
      · exact ⟨x, h, .refl⟩
      · next z hz =>
          obtain ⟨y, hy, hyx⟩ := ih h
          rcases mem_addNew.mp hy with hy | hy
          · exact ⟨y, hy, hyx⟩
          · exact ⟨z, List.mem_of_getElem? hz, hyx.head hy⟩

/-- The list `U` holds all that a search can find, so after `U.length` visits
there is nothing left to visit. -/
theorem explore_closed {U : List α} (hU : ∀ x ∈ U, ∀ y ∈ next x, y ∈ U) {n i : Nat}
    {seen : List α} (hnd : seen.Nodup) (hsub : ∀ x ∈ seen, x ∈ U)
    (hdone : ∀ j x, j < i → seen[j]? = some x → ∀ y ∈ next x, y ∈ seen)
    (hn : U.length ≤ n + i) {x y : α} (hx : x ∈ explore next n i seen) (hy : y ∈ next x) :
    y ∈ explore next n i seen := by
  have hlen : seen.length ≤ U.length := (hnd.subperm hsub).length_le
  induction n generalizing i seen with
  | zero =>
      obtain ⟨j, hj⟩ := List.mem_iff_getElem?.mp hx
      have hjlt : j < seen.length := (List.getElem?_eq_some_iff.mp hj).1
      exact hdone j x (by omega) hj y hy
  | succ n ih =>
      rw [explore] at hx ⊢
      split at hx
      · next hi =>
          obtain ⟨j, hj⟩ := List.mem_iff_getElem?.mp hx
          have hjlt : j < seen.length := (List.getElem?_eq_some_iff.mp hj).1
          have hile : seen.length ≤ i := List.getElem?_eq_none_iff.mp hi
          exact hdone j x (by omega) hj y hy
      · next z hz =>
          have hzU : z ∈ U := hsub z (List.mem_of_getElem? hz)
          have hnd' : (addNew seen (next z)).Nodup := nodup_addNew hnd
          have hsub' : ∀ w ∈ addNew seen (next z), w ∈ U := by
            intro w hw
            rcases mem_addNew.mp hw with hw | hw
            · exact hsub w hw
            · exact hU z hzU w hw
          refine ih hnd' hsub' ?_ (by omega) hx (hnd'.subperm hsub').length_le
          intro j w hj hw v hv
          have hilt : i < seen.length := (List.getElem?_eq_some_iff.mp hz).1
          have hsame : seen[j]? = some w := by
            obtain ⟨rest, hrest⟩ := prefix_addNew seen (next z)
            rw [← hrest, List.getElem?_append_left (by omega)] at hw
            exact hw
          rw [mem_addNew]
          rcases Nat.lt_succ_iff_lt_or_eq.mp hj with hj | hj
          · exact .inl (hdone j w hj hsame v hv)
          · subst hj
            rw [hsame] at hz
            cases hz
            exact .inr hv

theorem mem_reachable_iff {U : List α} (hU : ∀ x ∈ U, ∀ y ∈ next x, y ∈ U) {n : Nat}
    {start : List α} (hstart : ∀ x ∈ start, x ∈ U) (hn : U.length ≤ n) {x : α} :
    x ∈ reachable next n start ↔ ∃ y ∈ start, Reaches next y x := by
  have hmem : ∀ z, z ∈ addNew [] start ↔ z ∈ start := by simp [mem_addNew]
  constructor
  · intro h
    obtain ⟨y, hy, hyx⟩ := explore_sound h
    exact ⟨y, (hmem y).mp hy, hyx⟩
  · rintro ⟨y, hy, hyx⟩
    have hnd : (addNew [] start).Nodup := nodup_addNew List.nodup_nil
    induction hyx with
    | refl => exact (prefix_explore n 0 (addNew [] start)).subset ((hmem y).mpr hy)
    | tail _ hstep ih =>
        refine explore_closed hU hnd (fun z hz => hstart z ((hmem z).mp hz)) ?_ hn ih hstep
        intro j _ hj
        exact absurd hj (Nat.not_lt_zero j)

theorem nodup_reachable (n : Nat) (start : List α) : (reachable next n start).Nodup :=
  nodup_explore n 0 (nodup_addNew List.nodup_nil)

end ShiftReduce
