import ShiftReduce.Proofs.Automaton.States
import ShiftReduce.Proofs.Automaton.Worklists

/-! # The canonical collection

The states of the automaton are exactly the sets of items that gotos lead to.

- `Augmented.GotosIn`: a set is reached from the first one by that many gotos.
- `Augmented.completes_automaton`: the loop over the sets comes to an end, and its states are
  those of the automaton.
- `Augmented.IsCanonical`: what the states of a canonical collection are.
- `canonicalCollection_exact`: the loop finds such states.
-/

namespace ShiftReduce

namespace Augmented

variable {g : Grammar} {a : Augmented}

/-! ## Gotos -/

/-- That many gotos, each on a symbol after a marker, lead from the closure of `S' -> . S` to
the set. -/
inductive GotosIn (a : Augmented) : Nat → ItemSet → Prop where
  | start : GotosIn a 0 a.startItems
  | goto {n : Nat} {set : ItemSet} {x : Item} {X : Symbol} (h : GotosIn a n set)
      (hx : x ∈ set.items) (next : x.nextSymbol? a.grammar = some X) :
      GotosIn a (n + 1) (goto a.grammar set X)

theorem gotosIn_iff {n : Nat} {set : ItemSet} :
    a.GotosIn n set ↔ ReachesIn (successors a.grammar) a.startItems n set := by
  constructor
  · intro h
    induction h with
    | start => exact .refl
    | goto _ hx next ih =>
        exact .tail ih (mem_successors.mpr ⟨_, mem_nextSymbols.mpr ⟨_, hx, next⟩, rfl⟩)
  · intro h
    induction h with
    | refl => exact .start
    | tail _ hz ih =>
        obtain ⟨X, hX, rfl⟩ := mem_successors.mp hz
        obtain ⟨x, hx, next⟩ := mem_nextSymbols.mp hX
        exact .goto ih hx next

theorem mem_itemSets_iff (ha : Augments g a) {set : ItemSet} :
    set ∈ a.itemSets ↔ ∃ n, a.GotosIn n set := by
  rw [mem_itemSets ha]
  constructor
  · intro h
    obtain ⟨n, hn⟩ := h.exists_reachesIn
    exact ⟨n, gotosIn_iff.mpr hn⟩
  · rintro ⟨n, hn⟩
    exact (gotosIn_iff.mp hn).reaches

theorem GotosIn.items_ne_nil {n : Nat} {set : ItemSet} (h : a.GotosIn n set) :
    set.items ≠ [] := by
  cases h with
  | start => exact List.ne_nil_of_mem (mem_startItems.mpr .refl)
  | goto _ hx next => exact List.ne_nil_of_mem (mem_goto.mpr ⟨_, hx, next, .refl⟩)

/-! ## The loop -/

theorem tracks_initial (a : Augmented) : (Worklist.initial a).Tracks 0 [a.startItems] :=
  ⟨rfl, rfl⟩

theorem explores_itemSets (ha : Augments g a) :
    Explores (successors a.grammar) 0 [a.startItems] a.itemSets := by
  have hstart : ∀ set ∈ [a.startItems], set ∈ possibleSets a.grammar := by
    simpa using startItems_mem_possibleSets ha
  have h := explores_reachable (successors_mem_possibleSets a.grammar) hstart
    (length_possibleSets a.grammar)
  have hseen : addNew [] [a.startItems] = [a.startItems] := by simp [addNew]
  rwa [hseen] at h

theorem completes_automaton (ha : Augments g a) :
    ∃ w, (Worklist.initial a).Completes a.grammar w ∧ w.states = a.automaton.numbered := by
  obtain ⟨w, hcompletes, hfinished⟩ :=
    Worklist.completes_of_explores (explores_itemSets ha) (tracks_initial a) rfl
  refine ⟨w, hcompletes, congrArg OrderedMap.mk ?_⟩
  rw [Worklist.Finished, List.take_length] at hfinished
  rw [hfinished, automaton, List.zipIdx_map, List.map_map]
  rfl

/-! ## What the states are -/

/-- The states of a canonical collection, with their numbers. -/
structure IsCanonical (a : Augmented) (states : OrderedMap StateId State) : Prop where
  /-- The numbers are those from zero on, in the order of the states. -/
  numbers : states.keys = List.range states.size
  start : ∃ x, states.find? Automaton.start = some x ∧ x.items = a.startItems
  /-- There is a state for each set that gotos lead to, and for no other one. -/
  sets : ∀ set, (∃ x ∈ states.values, x.items = set) ↔ ∃ n, a.GotosIn n set
  nonempty : ∀ x ∈ states.values, x.items.items ≠ []
  distinct : (states.values.map (·.items)).Nodup
  /-- Each item is one of a rule, with its marker within the body or at its end. -/
  items : ∀ x ∈ states.values, ∀ y ∈ x.items.items,
    ∃ rule, a.grammar.rule? y.rule = some rule ∧ y.marker.toNat ≤ rule.body.length
  /-- In a grammar without very long rules no goto makes a marker overflow. -/
  markers : a.grammar.MarkersFit → ∀ x ∈ states.values, ∀ y ∈ x.items.items, ∀ X,
    y.nextSymbol? a.grammar = some X → y.advance.marker.toNat = y.marker.toNat + 1
  /-- There is one transition on each symbol after a marker, and on no other symbol. -/
  symbols : ∀ x ∈ states.values, x.transitions.keys.Nodup ∧
    ∀ X, X ∈ x.transitions.keys ↔ ∃ y ∈ x.items.items, y.nextSymbol? a.grammar = some X
  /-- A transition leads to the state of the goto. -/
  targets : ∀ x ∈ states.values, ∀ X s, x.transitions.find? X = some s →
    ∃ x', states.find? s = some x' ∧ x'.items = ShiftReduce.goto a.grammar x.items X
  /-- No state is farther from the first one than a state with a greater number. -/
  nearest : ∀ i j x y, i < j → states.find? i = some x → states.find? j = some y →
    ∀ n, a.GotosIn n y.items → ∃ m ≤ n, a.GotosIn m x.items

theorem mem_values_numbered {x : State} : x ∈ a.automaton.numbered.values ↔
    x.items ∈ a.itemSets ∧ x.transitions = transitions a.grammar a.itemSets x.items := by
  rw [Automaton.values_numbered, automaton, List.mem_map]
  constructor
  · rintro ⟨set, hset, rfl⟩
    exact ⟨hset, rfl⟩
  · rintro ⟨hset, htransitions⟩
    exact ⟨x.items, hset, congrArg (State.mk x.items) htransitions.symm⟩

theorem isCanonical_numbered (ha : Augments g a) : a.IsCanonical a.automaton.numbered where
  numbers := a.automaton.keys_numbered
  start := by
    rw [Automaton.find?_numbered, state?_eq, itemSets_start]
    exact ⟨_, rfl, rfl⟩
  sets := by
    intro set
    rw [← mem_itemSets_iff ha]
    constructor
    · rintro ⟨x, hx, rfl⟩
      exact (mem_values_numbered.mp hx).1
    · intro hset
      exact ⟨⟨set, transitions a.grammar a.itemSets set⟩,
        mem_values_numbered.mpr ⟨hset, rfl⟩, rfl⟩
  nonempty := by
    intro x hx
    obtain ⟨n, hn⟩ := (mem_itemSets_iff ha).mp (mem_values_numbered.mp hx).1
    exact hn.items_ne_nil
  distinct := by
    rw [Automaton.values_numbered, automaton, List.map_map]
    show (a.itemSets.map id).Nodup
    rw [List.map_id]
    exact nodup_reachable _ _
  items := by
    intro x hx y hy
    obtain ⟨rule, hrule, hmarker⟩ := isOf_of_mem_itemSets ha (mem_values_numbered.mp hx).1 hy
    exact ⟨rule, OrderedMap.find?_of_mem_entries ha.outer.rule_keys hrule, hmarker⟩
  markers := fun hfit _ _ y _ _ hX => y.toNat_advance_of_next (hfit.length_body y.rule) hX
  symbols := by
    intro x hx
    rw [(mem_values_numbered.mp hx).2, keys_transitions]
    exact ⟨nodup_nextSymbols a.grammar x.items, fun X => mem_nextSymbols⟩
  targets := by
    intro x hx X s hs
    obtain ⟨hset, htransitions⟩ := mem_values_numbered.mp hx
    rw [htransitions] at hs
    obtain ⟨hX, rfl⟩ := OrderedMap.find?_map_eq_some_iff.mp hs
    rw [Automaton.find?_numbered, state?_eq,
      List.getElem?_idxOf (goto_mem_itemSets ha hset hX)]
    exact ⟨_, rfl, rfl⟩
  nearest := by
    intro i j x y hij hx hy n hn
    rw [Automaton.find?_numbered] at hx hy
    obtain ⟨m, hm, hreach⟩ := exists_reachesIn_of_le (successors_mem_possibleSets a.grammar)
      (startItems_mem_possibleSets ha) (length_possibleSets a.grammar) (Nat.le_of_lt hij)
      (exists_set hx).1 (exists_set hy).1 (gotosIn_iff.mp hn)
    exact ⟨m, hm, gotosIn_iff.mpr hreach⟩

end Augmented

end ShiftReduce
