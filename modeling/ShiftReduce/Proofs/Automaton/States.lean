import ShiftReduce.Automaton.Path
import ShiftReduce.Proofs.Automaton.ItemSets
import ShiftReduce.Proofs.Grammar.Augmentation

/-! # The states of the automaton

What a state stands for is told by the items that it holds.

- `Augmented.Holds`: an item is in the set of a state.
- `Holds.reaches`: predictions do not leave a state.
- `Holds.next?`: there is a transition on each symbol after a marker.
- `Holds.of_next?`, `Holds.of_next?_pos`: the items of a state come from those of
  any state with a transition to it.
- `Holds.symbol_unique`, `next?_unique`: all transitions to a state are on one symbol, if an item
  tells it or no marker overflows.
-/

namespace ShiftReduce

variable {g : Grammar} {a : Augmented}

/-- The symbol after a marker stands in the body of a rule. -/
theorem Item.exists_body_of_next {x : Item} {X : Symbol} (h : x.nextSymbol? g = some X) :
    ∃ n body, g.Produces n body ∧ X ∈ body := by
  have hmem : X ∈ g.body x.rule := List.mem_of_getElem? h
  unfold Grammar.body at hmem
  split at hmem
  · next rule hrule =>
      exact ⟨rule.head, rule.body, Grammar.produces_of_rule? hrule, hmem⟩
  · cases hmem

/-- The added rule has one symbol only. -/
theorem Augments.markersFit (ha : Augments g a) (h : g.MarkersFit) : a.grammar.MarkersFit := by
  intro r hr
  rw [OrderedMap.values, ha.rules, List.map_append, List.mem_append] at hr
  rcases hr with hr | hr
  · exact h r hr
  · rw [List.mem_singleton.mp hr]
    exact (by decide : 1 < UInt16.size)

namespace Augmented

/-- Whether the item is in the set of the state. -/
def Holds (a : Augmented) (s : StateId) (x : Item) : Prop :=
  ∃ set, a.itemSets[s]? = some set ∧ x ∈ set.items

/-! ## The sets of items -/

theorem mem_nextSymbols {set : ItemSet} {s : Symbol} :
    s ∈ nextSymbols g set ↔ ∃ x ∈ set.items, x.nextSymbol? g = some s := by
  simp [nextSymbols, mem_addNew]

theorem mem_successors {set next : ItemSet} :
    next ∈ successors g set ↔ ∃ s ∈ nextSymbols g set, goto g set s = next :=
  List.mem_map

theorem mem_startItems {x : Item} :
    x ∈ a.startItems.items ↔ Reaches (predictions a.grammar) ⟨a.acceptRule, 0⟩ x := by
  rw [startItems, mem_closure]
  simp

theorem ascending_startItems : a.startItems.Ascending := ItemSet.ascending_ofList _

theorem startItems_mem_possibleSets (ha : Augments g a) :
    a.startItems ∈ possibleSets a.grammar := by
  apply mem_possibleSets ascending_startItems
  intro x hx
  have hfirst : (⟨a.acceptRule, 0⟩ : Item).IsOf a.grammar :=
    ⟨_, OrderedMap.mem_entries_of_find? ha.rule?_accept, Nat.zero_le _⟩
  exact hfirst.reaches (mem_startItems.mp hx)

theorem successors_mem_possibleSets (g : Grammar) :
    ∀ u ∈ possibleSets g, ∀ v ∈ successors g u, v ∈ possibleSets g := by
  intro u _ v hv
  obtain ⟨s, -, rfl⟩ := mem_successors.mp hv
  exact goto_mem_possibleSets u s

theorem mem_itemSets (ha : Augments g a) {set : ItemSet} :
    set ∈ a.itemSets ↔ Reaches (successors a.grammar) a.startItems set := by
  have hstart : ∀ u ∈ [a.startItems], u ∈ possibleSets a.grammar := by
    intro u hu
    rw [List.mem_singleton] at hu
    exact hu ▸ startItems_mem_possibleSets ha
  rw [itemSets, mem_reachable_iff (successors_mem_possibleSets a.grammar) hstart
    (length_possibleSets a.grammar)]
  simp

theorem ascending_of_mem_itemSets (ha : Augments g a) {set : ItemSet}
    (hset : set ∈ a.itemSets) : set.Ascending := by
  cases (mem_itemSets ha).mp hset with
  | refl => exact ascending_startItems
  | tail _ h1 =>
      obtain ⟨s, -, rfl⟩ := mem_successors.mp h1
      exact ascending_goto _ s

theorem nodup_itemSets : a.itemSets.Nodup := nodup_reachable _ _

/-- The items of the collection have their markers within a body or at its end. -/
theorem isOf_of_mem_itemSets (ha : Augments g a) {set : ItemSet} (hset : set ∈ a.itemSets)
    {x : Item} (hx : x ∈ set.items) : x.IsOf a.grammar := by
  have hmem : set ∈ possibleSets a.grammar := by
    cases (mem_itemSets ha).mp hset with
    | refl => exact startItems_mem_possibleSets ha
    | tail _ h1 =>
        obtain ⟨s, -, rfl⟩ := mem_successors.mp h1
        exact goto_mem_possibleSets _ s
  obtain ⟨xs, hxs, rfl⟩ := List.mem_map.mp hmem
  exact mem_allItems.mp (ItemSet.mem_ofList.mp ((List.mem_sublists.mp hxs).subset hx))

theorem itemSets_start : a.itemSets[Automaton.start]? = some a.startItems := by
  have h : [a.startItems] <+: a.itemSets := prefix_explore _ _ _
  obtain ⟨rest, hrest⟩ := h
  rw [← hrest]
  rfl

theorem goto_mem_itemSets (ha : Augments g a) {set : ItemSet} {s : Symbol}
    (hset : set ∈ a.itemSets) (hs : s ∈ nextSymbols a.grammar set) :
    goto a.grammar set s ∈ a.itemSets := by
  rw [mem_itemSets ha] at hset ⊢
  exact hset.tail (mem_successors.mpr ⟨s, hs, rfl⟩)

/-- A set of the collection is a closure. -/
theorem mem_items_of_reaches (ha : Augments g a) {set : ItemSet} (hset : set ∈ a.itemSets)
    {x y : Item} (hx : x ∈ set.items) (h : Reaches (predictions a.grammar) x y) :
    y ∈ set.items := by
  -- the first set and the gotos are both made of what predictions lead to
  cases (mem_itemSets ha).mp hset with
  | refl => exact mem_startItems.mpr ((mem_startItems.mp hx).trans h)
  | tail _ h1 =>
      obtain ⟨s, -, rfl⟩ := mem_successors.mp h1
      obtain ⟨z, hz, hs, hzx⟩ := mem_goto.mp hx
      exact mem_goto.mpr ⟨z, hz, hs, hzx.trans h⟩

/-! ## States -/

theorem state?_eq (s : StateId) : a.automaton.state? s =
    (a.itemSets[s]?).map fun set => ⟨set, transitions a.grammar a.itemSets set⟩ :=
  List.getElem?_map

/-- A state of the automaton, with its items and transitions. -/
theorem exists_set {s : StateId} {x : State} (hx : a.automaton.state? s = some x) :
    a.itemSets[s]? = some x.items ∧
      x.transitions = transitions a.grammar a.itemSets x.items := by
  rw [state?_eq, Option.map_eq_some_iff] at hx
  obtain ⟨set, hset, rfl⟩ := hx
  exact ⟨hset, rfl⟩

theorem keys_transitions (sets : List ItemSet) (set : ItemSet) :
    (transitions a.grammar sets set).keys = nextSymbols a.grammar set := by
  rw [transitions, OrderedMap.keys, List.map_map]
  exact List.map_id _

theorem holds_iff {s : StateId} {x : State} (hx : a.automaton.state? s = some x) {y : Item} :
    a.Holds s y ↔ y ∈ x.items.items := by
  rw [Holds, (exists_set hx).1]
  simp

theorem Holds.exists_state {s : StateId} {y : Item} (h : a.Holds s y) :
    ∃ x, a.automaton.state? s = some x ∧ y ∈ x.items.items := by
  obtain ⟨set, hset, hy⟩ := h
  rw [state?_eq, hset]
  exact ⟨_, rfl, hy⟩

theorem next?_eq_some_iff {s s' : StateId} {x : Symbol} :
    a.automaton.next? s x = some s' ↔ ∃ set, a.itemSets[s]? = some set ∧
      x ∈ nextSymbols a.grammar set ∧ a.itemSets.idxOf (goto a.grammar set x) = s' := by
  rw [Automaton.next?, state?_eq]
  cases h : a.itemSets[s]? with
  | none => simp
  | some set =>
      simp only [Option.map_some, Option.bind_some, transitions,
        OrderedMap.find?_map_eq_some_iff, Option.some.injEq, exists_eq_left']

theorem holds_start {x : Item} :
    a.Holds Automaton.start x ↔ Reaches (predictions a.grammar) ⟨a.acceptRule, 0⟩ x := by
  rw [Holds, itemSets_start]
  simp only [Option.some.injEq, exists_eq_left', mem_startItems]

/-- The transition on the symbol after a marker. -/
theorem Holds.next? (ha : Augments g a) {s : StateId} {x : Item} {X : Symbol}
    (h : a.Holds s x) (hX : x.nextSymbol? a.grammar = some X) :
    ∃ s', a.automaton.next? s X = some s' ∧ a.Holds s' x.advance := by
  obtain ⟨set, hset, hx⟩ := h
  have hmem : X ∈ nextSymbols a.grammar set := mem_nextSymbols.mpr ⟨x, hx, hX⟩
  have hgoto := goto_mem_itemSets ha (List.mem_of_getElem? hset) hmem
  refine ⟨_, (next?_eq_some_iff).mpr ⟨set, hset, hmem, rfl⟩, _, List.getElem?_idxOf hgoto, ?_⟩
  exact mem_goto.mpr ⟨x, hx, hX, .refl⟩

theorem Holds.reaches (ha : Augments g a) {s : StateId} {x y : Item} (h : a.Holds s x)
    (hxy : Reaches (predictions a.grammar) x y) : a.Holds s y := by
  obtain ⟨set, hset, hx⟩ := h
  exact ⟨set, hset, mem_items_of_reaches ha (List.mem_of_getElem? hset) hx hxy⟩

/-- An item with its marker at the beginning was predicted, save for the one that the first state
is made from and for rules that are too long for a marker. -/
theorem Holds.predicted (ha : Augments g a) {s : StateId} {x : Item} (h : a.Holds s x)
    (hx : x.marker = 0) (hshort : (a.grammar.body x.rule).length < UInt16.size) :
    x = ⟨a.acceptRule, 0⟩ ∨ ∃ y, a.Holds s y ∧ x ∈ predictions a.grammar y := by
  obtain ⟨set, hset, hmem⟩ := h
  cases (mem_itemSets ha).mp (List.mem_of_getElem? hset) with
  | refl =>
      cases mem_startItems.mp hmem with
      | refl => exact .inl rfl
      | tail h1 h2 => exact .inr ⟨_, ⟨_, hset, mem_startItems.mpr h1⟩, h2⟩
  | tail _ h1 =>
      obtain ⟨X, -, rfl⟩ := mem_successors.mp h1
      obtain ⟨y, hy, hX, hyx⟩ := mem_goto.mp hmem
      -- an item that has come over a symbol stands at its beginning after an overflow only
      cases hyx with
      | refl => exact absurd hshort (Nat.not_lt_of_le (Item.long_of_overflow (x := y) hX hx))
      | tail h2 h3 => exact .inr ⟨_, ⟨_, hset, mem_goto.mpr ⟨y, hy, hX, h2⟩⟩, h3⟩

/-- Where the items at the end of a transition come from. -/
theorem Holds.of_next? (ha : Augments g a) {s s' : StateId} {X : Symbol} {y : Item}
    (hnext : a.automaton.next? s X = some s') (h : a.Holds s' y) :
    ∃ x, a.Holds s x ∧ x.nextSymbol? a.grammar = some X ∧
      Reaches (predictions a.grammar) x.advance y := by
  obtain ⟨set, hset, hX, rfl⟩ := (next?_eq_some_iff).mp hnext
  obtain ⟨set', hset', hy⟩ := h
  rw [List.getElem?_idxOf (goto_mem_itemSets ha (List.mem_of_getElem? hset) hX)] at hset'
  cases hset'
  obtain ⟨x, hx, hs, hxy⟩ := mem_goto.mp hy
  exact ⟨x, ⟨set, hset, hx⟩, hs, hxy⟩

theorem exists_holds_of_next? (ha : Augments g a) {s s' : StateId} {X : Symbol}
    (hnext : a.automaton.next? s X = some s') :
    ∃ x, a.Holds s x ∧ x.nextSymbol? a.grammar = some X ∧ a.Holds s' x.advance := by
  obtain ⟨set, hset, hX, -⟩ := (next?_eq_some_iff).mp hnext
  obtain ⟨x, hx, hs⟩ := mem_nextSymbols.mp hX
  have h : a.Holds s x := ⟨set, hset, hx⟩
  obtain ⟨u, hu, hadvance⟩ := h.next? ha hs
  rw [hnext] at hu
  cases hu
  exact ⟨x, h, hs, hadvance⟩

/-! ## The first state -/

theorem Holds.marker_start {x : Item} (h : a.Holds Automaton.start x) :
    x.marker = 0 := by
  rcases (holds_start.mp h).marker with rfl | hx
  · rfl
  · exact hx

/-- The added rule is not begun behind a transition: its head stands in no body, and its own body
is short. -/
theorem not_holds_acceptRule (ha : Augments g a) {s s' : StateId} {X : Symbol}
    (hnext : a.automaton.next? s X = some s') : ¬ a.Holds s' ⟨a.acceptRule, 0⟩ := by
  intro h
  obtain ⟨y, -, hX, hyx⟩ := Holds.of_next? ha hnext h
  rcases Relation.ReflTransGen.cases_tail hyx with he | ⟨z, -, hz⟩
  · have hrule : a.acceptRule = y.rule := congrArg Item.rule he
    have hlong := Item.long_of_overflow hX (congrArg Item.marker he).symm
    rw [← hrule, ha.body_accept] at hlong
    exact absurd hlong (by decide : ¬ UInt16.size ≤ 1)
  · obtain ⟨n, rule, hn, hmem, hhead, -⟩ := mem_predictions.mp hz
    have hrule := OrderedMap.find?_of_mem_entries ha.outer.rule_keys hmem
    cases ha.rule?_accept.symm.trans hrule
    subst hhead
    obtain ⟨k, body, hp, hstart⟩ := Item.exists_body_of_next hn
    exact absurd hstart (ha.start_not_mem_body hp)

theorem next?_ne_start (ha : Augments g a) {s s' : StateId} {X : Symbol}
    (hnext : a.automaton.next? s X = some s') : s' ≠ Automaton.start := by
  rintro rfl
  exact not_holds_acceptRule ha hnext (holds_start.mpr .refl)

/-! ## The symbols of transitions -/

/-- An item that is not at its beginning has come over the symbol before its marker. -/
theorem Holds.of_next?_pos (ha : Augments g a) {s s' : StateId} {X : Symbol} {y : Item}
    (hnext : a.automaton.next? s X = some s') (h : a.Holds s' y) (hy : y.marker ≠ 0) :
    ∃ x, a.Holds s x ∧ x.nextSymbol? a.grammar = some X ∧ x.advance = y := by
  obtain ⟨x, hx, hX, hxy⟩ := Holds.of_next? ha hnext h
  rcases hxy.marker with rfl | h0
  · exact ⟨x, hx, hX, rfl⟩
  · exact absurd h0 hy

/-- Such an item tells the symbol of all transitions to its state. -/
theorem Holds.symbol_unique (ha : Augments g a) {s u s' : StateId} {X Y : Symbol} {y : Item}
    (h : a.Holds s' y) (hy : y.marker ≠ 0) (hX : a.automaton.next? s X = some s')
    (hY : a.automaton.next? u Y = some s') : X = Y := by
  obtain ⟨x, -, hsX, hx⟩ := Holds.of_next?_pos ha hX h hy
  obtain ⟨x', -, hsY, hx'⟩ := Holds.of_next?_pos ha hY h hy
  cases Item.eq_of_advance_eq (hx.trans hx'.symm)
  exact Option.some.inj (hsX.symm.trans hsY)

/-- If no marker overflows, the symbol of a transition is known from the state that it leads to. -/
theorem next?_unique (ha : Augments g a) (hfit : a.grammar.MarkersFit) {s u s' : StateId}
    {X Y : Symbol} (hX : a.automaton.next? s X = some s')
    (hY : a.automaton.next? u Y = some s') : X = Y := by
  obtain ⟨x, -, hsX, hx⟩ := exists_holds_of_next? ha hX
  exact hx.symbol_unique ha (hfit.advance_ne_zero hsX) hX hY

/-- The items of a state have their markers within a body or at its end. -/
theorem Holds.isOf (ha : Augments g a) {s : StateId} {x : Item} (h : a.Holds s x) :
    x.IsOf a.grammar := by
  obtain ⟨set, hset, hx⟩ := h
  exact isOf_of_mem_itemSets ha (List.mem_of_getElem? hset) hx

end Augmented

end ShiftReduce
