import ShiftReduce.Automaton.Worklist
import ShiftReduce.Search.BreadthFirst

/-! # The loop finds the automaton

- `Worklist.Tracks`: the index and the sets that are pending, told by a search that has
  come to some position.
- `Tracks.number`, `Tracks.addTransitions`: what a round does to them.
- `Worklist.completes_of_explores`: the loop follows the search to its end.
-/

namespace ShiftReduce

/-! ## Numbered lists -/

section

variable {α : Type}

theorem lookup_zipIdx [DecidableEq α] (xs : List α) (n : Nat) (x : α) :
    (xs.zipIdx n).lookup x = if x ∈ xs then some (n + xs.idxOf x) else none := by
  induction xs generalizing n with
  | nil => rfl
  | cons y ys ih =>
      rw [List.zipIdx_cons, List.lookup_cons]
      by_cases hxy : x = y
      · subst hxy
        simp
      · have hne : (x == y) = false := beq_eq_false_iff_ne.mpr hxy
        have hne' : (y == x) = false := beq_eq_false_iff_ne.mpr (Ne.symm hxy)
        simp only [hne, ih, List.mem_cons, hxy, false_or, List.idxOf_cons, hne', cond_false]
        split
        · rw [Nat.add_right_comm, Nat.add_assoc]
        · rfl

theorem lookup_swap_zipIdx (xs : List α) (n i : Nat) :
    ((xs.zipIdx n).map Prod.swap).lookup (n + i) = xs[i]? := by
  induction xs generalizing n i with
  | nil => rfl
  | cons x xs ih =>
      rw [List.zipIdx_cons, List.map_cons, Prod.swap_prod_mk, List.lookup_cons]
      cases i with
      | zero => simp
      | succ i =>
          have hne : (n + (i + 1) == n) = false := by simp
          have hnext := ih (n + 1) i
          rw [Nat.add_right_comm, Nat.add_assoc] at hnext
          simpa only [hne, List.getElem?_cons_succ] using hnext

end

namespace Automaton

variable (a : Automaton)

theorem find?_numbered (s : StateId) : a.numbered.find? s = a.state? s := by
  have h := lookup_swap_zipIdx a.states 0 s
  rwa [Nat.zero_add] at h

theorem values_numbered : a.numbered.values = a.states := by
  rw [numbered, OrderedMap.values, List.map_map]
  exact List.zipIdx_map_fst 0 a.states

theorem keys_numbered : a.numbered.keys = List.range a.numbered.size := by
  rw [numbered, OrderedMap.keys, OrderedMap.size, List.map_map, List.length_map,
    List.length_zipIdx, List.range_eq_range']
  exact List.zipIdx_map_snd 0 a.states

end Automaton

namespace Worklist

variable {g : Grammar} {w : Worklist} {i : Nat} {seen : List ItemSet}

/-- The sets that have been seen are numbered by their positions, and those from position `i`
on are pending. -/
structure Tracks (w : Worklist) (i : Nat) (seen : List ItemSet) : Prop where
  index : w.index.entries = seen.zipIdx
  pending : w.pending = (seen.zipIdx.drop i).map Prod.swap

theorem Tracks.number (h : w.Tracks i seen) (hi : i ≤ seen.length) (set : ItemSet) :
    (w.number set).2.Tracks i (addNew seen [set]) ∧
      (w.number set).1 = (addNew seen [set]).idxOf set ∧
      (w.number set).2.states = w.states := by
  have hfind : w.index.find? set = if set ∈ seen then some (seen.idxOf set) else none := by
    rw [OrderedMap.find?, h.index, lookup_zipIdx]
    simp
  unfold Worklist.number
  by_cases hset : set ∈ seen
  · have hsame : addNew seen [set] = seen := by simp [addNew, hset]
    rw [hfind, if_pos hset, hsame]
    exact ⟨h, rfl, rfl⟩
  · have hnew : addNew seen [set] = seen ++ [set] := by simp [addNew, hset]
    have hsize : w.index.size = seen.length := by
      rw [OrderedMap.size, h.index, List.length_zipIdx]
    have hfresh : set ∉ w.index.keys := by
      rw [OrderedMap.keys, h.index, List.zipIdx_map_fst]
      exact hset
    rw [hfind, if_neg hset, hnew, hsize]
    refine ⟨⟨?_, ?_⟩, ?_, rfl⟩
    · rw [OrderedMap.entries_insert_of_fresh hfresh, h.index]
      simp [List.zipIdx_append]
    · rw [h.pending, List.zipIdx_append, List.drop_append_of_le_length (by simpa using hi)]
      simp
    · simp [List.idxOf_append, hset]

/-- The transitions on new symbols lead to the positions that the sets have in any longer
list. -/
theorem Tracks.addTransitions (h : w.Tracks i seen) (hi : i ≤ seen.length) {set : ItemSet}
    {Xs : List Symbol} {transitions : OrderedMap Symbol StateId} (hXs : Xs.Nodup)
    (hfresh : ∀ X ∈ Xs, X ∉ transitions.keys) {sets : List ItemSet}
    (hsets : addNew seen (Xs.map (goto g set)) <+: sets) :
    (w.addTransitions g set Xs transitions).2.Tracks i (addNew seen (Xs.map (goto g set))) ∧
      (w.addTransitions g set Xs transitions).1.entries =
        transitions.entries ++ Xs.map (fun X => (X, sets.idxOf (goto g set X))) ∧
      (w.addTransitions g set Xs transitions).2.states = w.states := by
  induction Xs generalizing w seen transitions with
  | nil => exact ⟨h, (List.append_nil _).symm, rfl⟩
  | cons X Xs ih =>
      obtain ⟨hX, hXs⟩ := List.nodup_cons.mp hXs
      obtain ⟨h1, hid, hstates⟩ := h.number hi (goto g set X)
      have hlen : i ≤ (addNew seen [goto g set X]).length :=
        Nat.le_trans hi (prefix_addNew seen _).length_le
      -- the number is the position in the longer list as well
      have hposition : (addNew seen [goto g set X]).idxOf (goto g set X) =
          sets.idxOf (goto g set X) := by
        obtain ⟨rest, hrest⟩ := (prefix_addNew (addNew seen [goto g set X]) _).trans hsets
        rw [← hrest, List.idxOf_append_of_mem (mem_addNew.mpr (.inr (List.mem_singleton.mpr rfl)))]
      have hentries : (transitions.insert X (w.number (goto g set X)).1).entries =
          transitions.entries ++ [(X, sets.idxOf (goto g set X))] := by
        rw [OrderedMap.entries_insert_of_fresh (hfresh X List.mem_cons_self), hid, hposition]
      have hfresh' : ∀ Y ∈ Xs, Y ∉ (transitions.insert X (w.number (goto g set X)).1).keys := by
        intro Y hY
        rw [OrderedMap.keys, hentries, List.map_append, List.mem_append, not_or]
        refine ⟨hfresh Y (List.mem_cons_of_mem X hY), ?_⟩
        simpa using fun he : Y = X => hX (he ▸ hY)
      obtain ⟨h2, hrest, hstates'⟩ := ih h1 hlen hXs hfresh' hsets
      refine ⟨h2, ?_, hstates'.trans hstates⟩
      rw [hentries, List.append_assoc] at hrest
      exact hrest

/-- The finished states are those of the first `i` sets, in their order. -/
def Finished (g : Grammar) (w : Worklist) (i : Nat) (sets : List ItemSet) : Prop :=
  w.states.entries = (sets.take i).zipIdx.map fun (set, id) =>
    (id, ⟨set, Augmented.transitions g sets set⟩)

/-- The next state is finished behind those that are there. -/
theorem Finished.insert {sets : List ItemSet} (h : Finished g w i sets) {set : ItemSet}
    (hset : sets[i]? = some set) :
    (w.states.insert i ⟨set, Augmented.transitions g sets set⟩).entries =
      (sets.take (i + 1)).zipIdx.map fun (set, id) =>
        (id, ⟨set, Augmented.transitions g sets set⟩) := by
  have hlen : (sets.take i).length = i := by
    have hlt := (List.getElem?_eq_some_iff.mp hset).1
    rw [List.length_take]
    omega
  have hkeys : w.states.keys = List.range' 0 i := by
    have hnumbers := List.zipIdx_map_snd 0 (sets.take i)
    rw [hlen] at hnumbers
    rw [OrderedMap.keys, h, List.map_map]
    exact hnumbers
  have hfresh : i ∉ w.states.keys := by
    rw [hkeys, List.mem_range'_1]
    omega
  rw [OrderedMap.entries_insert_of_fresh hfresh, h, List.take_add_one, hset,
    List.zipIdx_append, hlen]
  simp

/-- The first pending set is the one at the position that comes next. -/
theorem Tracks.pop {set : ItemSet} (h : w.Tracks i seen) (hset : seen[i]? = some set) :
    ∃ pending, w.pending = (i, set) :: pending ∧
      ({ w with pending := pending } : Worklist).Tracks (i + 1) seen := by
  obtain ⟨hlt, hget⟩ := List.getElem?_eq_some_iff.mp hset
  refine ⟨(seen.zipIdx.drop (i + 1)).map Prod.swap, ?_, h.index, rfl⟩
  rw [h.pending, List.drop_eq_getElem_cons (by simpa using hlt)]
  simp [hget]

/-- One round of the loop is one visit of the search. -/
theorem Tracks.visit {set : ItemSet} (h : w.Tracks (i + 1) seen) (hset : seen[i]? = some set)
    {sets : List ItemSet} (hfinished : Finished g w i sets)
    (hsets : addNew seen (successors g set) <+: sets) :
    (w.visit g i set).Tracks (i + 1) (addNew seen (successors g set)) ∧
      Finished g (w.visit g i set) (i + 1) sets := by
  have hlt : i + 1 ≤ seen.length := (List.getElem?_eq_some_iff.mp hset).1
  have hnone : ∀ X ∈ nextSymbols g set, X ∉ (∅ : OrderedMap Symbol StateId).keys := by
    simp [OrderedMap.keys, EmptyCollection.emptyCollection]
  obtain ⟨h1, htransitions, hstates⟩ :=
    h.addTransitions hlt (nodup_nextSymbols g set) hnone hsets
  refine ⟨⟨h1.index, h1.pending⟩, ?_⟩
  obtain ⟨rest, hrest⟩ := (prefix_addNew seen _).trans hsets
  have hset' : sets[i]? = some set := by
    rw [← hrest, List.getElem?_append_left hlt, hset]
  have htransitions' : (w.addTransitions g set (nextSymbols g set) ∅).1 =
      Augmented.transitions g sets set :=
    congrArg OrderedMap.mk (htransitions.trans (List.nil_append _))
  show ((w.addTransitions g set (nextSymbols g set) ∅).2.states.insert i
    ⟨set, (w.addTransitions g set (nextSymbols g set) ∅).1⟩).entries = _
  rw [hstates, htransitions']
  exact hfinished.insert hset'

/-- The loop follows the search, so it comes to an end where the search does. -/
theorem completes_of_explores {sets : List ItemSet}
    (h : Explores (successors g) i seen sets) (hw : w.Tracks i seen)
    (hfinished : Finished g w i sets) :
    ∃ w', Completes g w w' ∧ Finished g w' sets.length sets := by
  induction h generalizing w with
  | @done i seen hlen =>
      have hnone : w.pending = [] := by
        rw [hw.pending, List.drop_eq_nil_of_le (by simpa using hlen), List.map_nil]
      refine ⟨w, .done hnone, ?_⟩
      rw [Finished, List.take_of_length_le hlen] at hfinished
      rw [Finished, List.take_length]
      exact hfinished
  | visit hset rest ih =>
      obtain ⟨pending, hpending, hw'⟩ := hw.pop hset
      obtain ⟨h1, h2⟩ := hw'.visit hset hfinished rest.prefix
      obtain ⟨w', hcompletes, hw''⟩ := ih h1 h2
      exact ⟨w', .visit hpending hcompletes, hw''⟩

end Worklist

end ShiftReduce
