import ShiftReduce.Proofs.Automaton.Stacks

/-! # Paths to a state

The paths from the first state to another one are the stacks that have this state on top, told
from the bottom. So what a stack spells is what the path spells, and the items of a state tell
how each path to it ends.

- `Automaton.isPathTo_iff`: paths and stacks.
- `Automaton.IsPathTo.uncover`: the symbols before a marker are the last ones of the path, and
  the rule was begun where they begin.
- `exists_isPathTo`, `exists_entry`: there is a path to each state, and each but the first one is
  entered.
- `holds_acceptRule_iff`, `holds_accepted_iff`: where the added rule is begun, and where it
  comes to its end.
-/

namespace ShiftReduce

variable {g : Grammar} {a : Augmented}

/-! ## Paths and stacks -/

namespace Automaton.Passes

theorem symbols_unique (ha : Augments g a) (hfit : a.grammar.MarkersFit) {ss : List StateId}
    {Xs Ys : List Symbol} (h : a.automaton.Passes ss Xs) (h' : a.automaton.Passes ss Ys) :
    Xs = Ys := by
  induction h generalizing Ys with
  | single s =>
      cases h'
      rfl
  | cons next _ ih =>
      cases h' with
      | cons next' rest' => rw [Augmented.next?_unique ha hfit next next', ih rest']

/-- A path that goes on from the topmost state of a stack makes the stack higher. -/
theorem spells {s : StateId} {ss below : List StateId} {Xs Ys : List Symbol}
    (h : a.automaton.Passes (s :: ss) Xs) (hs : a.Spells (s :: below) Ys) :
    a.Spells (ss.reverse ++ s :: below) (Xs.reverse ++ Ys) := by
  induction ss generalizing s below Xs Ys with
  | nil =>
      cases h
      exact hs
  | cons s' ss ih =>
      cases h with
      | cons next rest =>
          have h' := ih rest (.push hs next)
          rw [List.reverse_cons, List.reverse_cons, List.append_assoc, List.append_assoc]
          exact h'

end Automaton.Passes

namespace Augmented

namespace Spells

theorem passes {ss : List StateId} {Xs : List Symbol} (h : a.Spells ss Xs) :
    a.automaton.Passes ss.reverse Xs.reverse := by
  induction h with
  | start => exact .single _
  | push _ next ih =>
      rw [List.reverse_cons] at ih
      rw [List.reverse_cons, List.reverse_cons, List.reverse_cons]
      exact ih.snoc next

theorem getLast?_eq {ss : List StateId} {Xs : List Symbol} (h : a.Spells ss Xs) :
    ss.getLast? = some Automaton.start := by
  induction h with
  | start => rfl
  | push _ _ ih => rw [List.getLast?_cons_cons, ih]

end Spells

end Augmented

theorem Automaton.isPathTo_iff {s : StateId} {ss : List StateId} {Xs : List Symbol} :
    a.automaton.IsPathTo s ss Xs ↔ ∃ below, ss.reverse = s :: below ∧
      a.Spells (s :: below) Xs.reverse := by
  constructor
  · rintro ⟨hpasses, hfirst, hlast⟩
    have hreverse := (List.head?_reverse (l := ss)).trans hlast
    obtain ⟨below, hbelow⟩ := List.head?_eq_some_iff.mp hreverse
    refine ⟨below, hbelow, ?_⟩
    obtain ⟨rest, rfl⟩ := List.head?_eq_some_iff.mp hfirst
    have hspells := hpasses.spells .start
    rw [← List.reverse_cons, hbelow, List.append_nil] at hspells
    exact hspells
  · rintro ⟨below, hbelow, hspells⟩
    have hss : ss = (s :: below).reverse := by rw [← hbelow, List.reverse_reverse]
    have hpasses := hspells.passes
    rw [List.reverse_reverse, ← hss] at hpasses
    refine ⟨hpasses, ?_, ?_⟩
    · rw [hss, List.head?_reverse, hspells.getLast?_eq]
    · rw [hss, List.getLast?_reverse]
      rfl

/-- The path ends with the symbols before the marker, and the state that they lead from has
the rule with its marker at the beginning. -/
theorem Automaton.IsPathTo.uncover (ha : Augments g a) {s : StateId} {ss : List StateId}
    {Xs : List Symbol} (h : a.automaton.IsPathTo s ss Xs) {x : Item} (hx : a.Holds s x) :
    x.marker.toNat ≤ Xs.length ∧
      Xs.drop (Xs.length - x.marker.toNat) = (a.grammar.body x.rule).take x.marker.toNat ∧
      ∃ u, ss[Xs.length - x.marker.toNat]? = some u ∧ a.Holds u ⟨x.rule, 0⟩ := by
  obtain ⟨below, hbelow, hspells⟩ := isPathTo_iff.mp h
  obtain ⟨hle, htake, u, under, hdrop, -, hholds⟩ := hspells.uncover ha hx
  rw [List.length_reverse] at hle
  rw [List.take_reverse, List.reverse_reverse] at htake
  refine ⟨hle, htake, u, ?_, hholds⟩
  -- the stack has one state more than symbols
  have hlength : ss.length = Xs.length + 1 := by
    rw [← List.length_reverse, hbelow, hspells.length, List.length_reverse]
  have hu : ss.reverse[x.marker.toNat]? = some u := by
    rw [hbelow, ← List.head?_drop, hdrop]
    rfl
  rw [List.getElem?_reverse (by omega), hlength] at hu
  exact hu

namespace Augmented

/-! ## How states are entered -/

theorem exists_spells (ha : Augments g a) {s : StateId} {set : ItemSet}
    (hset : a.itemSets[s]? = some set) : ∃ below Xs, a.Spells (s :: below) Xs := by
  have hreach := (mem_itemSets ha).mp (List.mem_of_getElem? hset)
  -- the gotos that lead to the set are a path
  induction hreach generalizing s with
  | refl =>
      cases position_unique nodup_itemSets hset itemSets_start
      exact ⟨[], [], .start⟩
  | tail h h1 ih =>
      obtain ⟨X, hX, rfl⟩ := mem_successors.mp h1
      have hmem := (mem_itemSets ha).mpr h
      obtain ⟨u, hu⟩ := List.mem_iff_getElem?.mp hmem
      obtain ⟨below, Xs, hspells⟩ := ih hu
      have hs := position_unique nodup_itemSets
        (List.getElem?_idxOf (goto_mem_itemSets ha hmem hX)) hset
      exact ⟨u :: below, X :: Xs, .push hspells (next?_eq_some_iff.mpr ⟨_, hu, hX, hs⟩)⟩

theorem exists_isPathTo (ha : Augments g a) {s : StateId} {set : ItemSet}
    (hset : a.itemSets[s]? = some set) : ∃ ss Xs, a.automaton.IsPathTo s ss Xs := by
  obtain ⟨below, Xs, hspells⟩ := exists_spells ha hset
  refine ⟨(s :: below).reverse, Xs.reverse, Automaton.isPathTo_iff.mpr ⟨below, ?_, ?_⟩⟩
  · exact List.reverse_reverse _
  · rwa [List.reverse_reverse]

/-- Every state but the first one is entered. -/
theorem exists_entry (ha : Augments g a) {s : StateId} {set : ItemSet}
    (hset : a.itemSets[s]? = some set) (hs : s ≠ Automaton.start) :
    ∃ X u, a.automaton.next? u X = some s := by
  obtain ⟨below, Xs, hspells⟩ := exists_spells ha hset
  cases hspells with
  | start => exact absurd rfl hs
  | push _ next => exact ⟨_, _, next⟩

/-! ## Where the added rule stands -/

/-- The added rule is begun in the first state only. -/
theorem Holds.eq_start (ha : Augments g a) {s : StateId} (h : a.Holds s ⟨a.acceptRule, 0⟩) :
    s = Automaton.start := by
  obtain ⟨set, hset, -⟩ := id h
  obtain ⟨below, Xs, hspells⟩ := exists_spells ha hset
  cases hspells with
  | start => rfl
  | push _ next => exact absurd h (not_holds_acceptRule ha next)

theorem holds_acceptRule_iff (ha : Augments g a) {s : StateId} :
    a.Holds s ⟨a.acceptRule, 0⟩ ↔ s = Automaton.start := by
  constructor
  · exact Holds.eq_start ha
  · rintro rfl
    exact holds_start.mpr .refl

theorem nextSymbol?_acceptRule (ha : Augments g a) :
    (⟨a.acceptRule, 0⟩ : Item).nextSymbol? a.grammar = some (.nonterminal g.start) := by
  rw [Item.nextSymbol?, ha.body_accept]
  rfl

/-- There is a transition on `S` from the first state. -/
theorem exists_next?_start (ha : Augments g a) :
    ∃ s, a.automaton.next? Automaton.start (.nonterminal g.start) = some s ∧
      a.Holds s ⟨a.acceptRule, 1⟩ :=
  ((holds_acceptRule_iff ha).mpr rfl).next? ha (nextSymbol?_acceptRule ha)

/-- The added rule comes to its end in the state that `S` leads to from the first one. -/
theorem holds_accepted_iff (ha : Augments g a) {s : StateId} :
    a.Holds s ⟨a.acceptRule, 1⟩ ↔
      a.automaton.next? Automaton.start (.nonterminal g.start) = some s := by
  constructor
  · intro h
    have hne : (1 : UInt16) ≠ 0 := by decide
    obtain ⟨set, hset, -⟩ := id h
    obtain ⟨below, Xs, hspells⟩ := exists_spells ha hset
    cases hspells with
    | start => exact absurd h.marker_start hne
    | push _ next =>
        obtain ⟨x, hx, hX, hadvance⟩ := Holds.of_next?_pos ha next h hne
        have hbegun : x = ⟨a.acceptRule, 0⟩ := Item.eq_of_advance_eq hadvance
        subst hbegun
        cases hx.eq_start ha
        cases (nextSymbol?_acceptRule ha).symm.trans hX
        exact next
  · intro h
    obtain ⟨s', hs', hholds⟩ := exists_next?_start ha
    cases h.symm.trans hs'
    exact hholds

end Augmented

end ShiftReduce
