import Mathlib.Data.List.Sort
import Mathlib.Data.List.Sublists
import ShiftReduce.Automaton.Collection
import ShiftReduce.Search.Reachability

/-! # Items and sets of items

- `Item.toNat_advance_of_next`, `Item.long_of_overflow`: a marker is moved by one, or it was at the
  end of its 16 bits in a body that is too long for them.
- `ItemSet.Ascending`: the items of a set are in order, none twice, so a set is
  known by its members.
- `mem_closure`, `mem_goto`: the members of a closure are the items that
  predictions lead to.
- `possibleSets`: the sets of items of a grammar; there are at most two to the
  number of its items, and a goto leads to one of them.
-/

namespace ShiftReduce

/-! ## The order of items -/

namespace Item

theorem before_iff {x y : Item} :
    x.before y = true ↔ x.rule < y.rule ∨ x.rule = y.rule ∧ x.marker < y.marker := by
  simp [before]

theorem before_trans {x y z : Item} (h : x.before y = true) (h' : y.before z = true) :
    x.before z = true := by
  rw [before_iff] at *
  rcases h with h | ⟨h1, h2⟩
  · rcases h' with h' | ⟨h1', -⟩
    · exact .inl (Nat.lt_trans h h')
    · exact .inl (h1' ▸ h)
  · rcases h' with h' | ⟨h1', h2'⟩
    · exact .inl (h1 ▸ h')
    · exact .inr ⟨h1.trans h1', UInt16.lt_trans h2 h2'⟩

theorem before_irrefl (x : Item) : ¬ x.before x = true := by
  rw [before_iff]
  rintro (h | ⟨-, h⟩)
  · exact Nat.lt_irrefl _ h
  · exact UInt16.lt_irrefl _ h

theorem before_of_ne {x y : Item} (hne : x ≠ y) (h : ¬ x.before y = true) :
    y.before x = true := by
  rw [before_iff] at *
  rcases Nat.lt_trichotomy x.rule y.rule with h1 | h1 | h1
  · exact absurd (.inl h1) h
  · rcases Nat.lt_trichotomy x.marker.toNat y.marker.toNat with h2 | h2 | h2
    · exact absurd (.inr ⟨h1, UInt16.lt_iff_toNat_lt.mpr h2⟩) h
    · exact absurd (Item.ext h1 (UInt16.toNat_inj.mp h2)) hne
    · exact .inr ⟨h1.symm, UInt16.lt_iff_toNat_lt.mpr h2⟩
  · exact .inl h1

/-! ## Moving a marker -/

section

variable {g : Grammar} {x : Item} {s : Symbol}

theorem marker_lt_of_next (h : x.nextSymbol? g = some s) :
    x.marker.toNat < (g.body x.rule).length :=
  (List.getElem?_eq_some_iff.mp h).1

theorem toNat_advance (h : x.marker.toNat + 1 < UInt16.size) :
    x.advance.marker.toNat = x.marker.toNat + 1 := by
  rw [advance, UInt16.toNat_add, UInt16.toNat_one]
  exact Nat.mod_eq_of_lt h

/-- Before the last of its 16 bits' values a marker is moved by one. -/
theorem eq_advance_iff {y : Item} (h : x.marker.toNat + 1 < UInt16.size) :
    y = x.advance ↔ y.rule = x.rule ∧ y.marker.toNat = x.marker.toNat + 1 := by
  rw [Item.ext_iff, ← UInt16.toNat_inj, toNat_advance h]
  rfl

/-- From the last one it begins again. -/
theorem advance_eq_of_overflow (h : x.marker.toNat + 1 = UInt16.size) :
    x.advance = ⟨x.rule, 0⟩ := by
  refine Item.ext rfl (UInt16.toNat_inj.mp ?_)
  rw [advance, UInt16.toNat_add, UInt16.toNat_one, h]
  rfl

/-- Only an overflow leads to the beginning. -/
theorem toNat_advance_of_ne_zero (h : x.advance.marker ≠ 0) :
    x.advance.marker.toNat = x.marker.toNat + 1 := by
  apply toNat_advance
  have hlt := x.marker.toNat_lt_size
  have hne : (x.marker.toNat + 1) % 2 ^ 16 ≠ 0 := by
    rwa [← UInt16.toNat_one, ← UInt16.toNat_add, ← UInt16.toNat_zero, ne_eq, UInt16.toNat_inj]
  have hsize : UInt16.size = 2 ^ 16 := rfl
  omega

/-- In a body that is short enough there is no overflow. -/
theorem toNat_advance_of_next (hshort : (g.body x.rule).length < UInt16.size)
    (h : x.nextSymbol? g = some s) : x.advance.marker.toNat = x.marker.toNat + 1 :=
  toNat_advance (Nat.lt_of_le_of_lt (marker_lt_of_next h) hshort)

theorem long_of_overflow (h : x.nextSymbol? g = some s) (hzero : x.advance.marker = 0) :
    UInt16.size ≤ (g.body x.rule).length := by
  by_contra hshort
  have hsucc := toNat_advance_of_next (Nat.lt_of_not_le hshort) h
  rw [hzero] at hsucc
  cases hsucc

theorem advance_ne_zero (hshort : (g.body x.rule).length < UInt16.size)
    (h : x.nextSymbol? g = some s) : x.advance.marker ≠ 0 :=
  fun hzero => Nat.not_lt_of_le (long_of_overflow h hzero) hshort

theorem eq_of_advance_eq {y : Item} (h : x.advance = y.advance) : x = y := by
  have hmarker : x.marker + 1 = y.marker + 1 := congrArg Item.marker h
  have hrule : x.advance.rule = y.advance.rule := congrArg Item.rule h
  exact Item.ext hrule ((UInt16.add_left_inj 1).mp hmarker)

end

end Item

theorem Grammar.MarkersFit.length_body {g : Grammar} (h : g.MarkersFit) (r : RuleId) :
    (g.body r).length < UInt16.size := by
  unfold Grammar.body
  split
  · next rule hr => exact h rule (OrderedMap.mem_values.mpr ⟨r, OrderedMap.mem_entries_of_find? hr⟩)
  · decide

theorem Grammar.MarkersFit.advance_ne_zero {g : Grammar} (h : g.MarkersFit) {x : Item} {s : Symbol}
    (hs : x.nextSymbol? g = some s) : x.advance.marker ≠ 0 :=
  Item.advance_ne_zero (h.length_body x.rule) hs

namespace ItemSet

def Ascending (s : ItemSet) : Prop := s.items.Pairwise fun x y => x.before y = true

theorem ascending_insertItem {x : Item} {ys : List Item}
    (h : ys.Pairwise fun x y => x.before y = true) :
    (insertItem x ys).Pairwise fun x y => x.before y = true := by
  induction ys with
  | nil => exact List.pairwise_singleton _ x
  | cons y ys ih =>
      obtain ⟨hy, hys⟩ := List.pairwise_cons.mp h
      rw [insertItem]
      split
      · exact h
      · next hne =>
          split
          · next hxy =>
              refine List.pairwise_cons.mpr ⟨?_, h⟩
              intro z hz
              rcases List.mem_cons.mp hz with rfl | hz
              · exact hxy
              · exact Item.before_trans hxy (hy z hz)
          · next hxy =>
              refine List.pairwise_cons.mpr ⟨?_, ih hys⟩
              intro z hz
              rcases mem_insertItem.mp hz with rfl | hz
              · exact Item.before_of_ne hne hxy
              · exact hy z hz

theorem ascending_ofList : ∀ xs : List Item, (ofList xs).Ascending
  | [] => List.Pairwise.nil
  | _ :: xs => ascending_insertItem (ascending_ofList xs)

instance : Std.Antisymm fun x y : Item => x.before y = true :=
  ⟨fun x _ h h' => absurd (Item.before_trans h h') (Item.before_irrefl x)⟩

instance : Std.Irrefl fun x y : Item => x.before y = true := ⟨Item.before_irrefl⟩

theorem Ascending.sublist {s u : ItemSet} (hs : s.Ascending) (hu : u.Ascending)
    (h : s.items ⊆ u.items) : s.items.Sublist u.items :=
  List.sublist_of_subperm_of_pairwise (List.subperm_of_subset (List.Pairwise.nodup hs) h) hs hu

/-- A set of items is known by its members. -/
theorem Ascending.eq_of_mem_iff {s u : ItemSet} (hs : s.Ascending) (hu : u.Ascending)
    (h : ∀ x, x ∈ s.items ↔ x ∈ u.items) : s = u :=
  congrArg ItemSet.mk (List.Pairwise.eq_of_mem_iff hs hu h)

theorem length_insertItem (x : Item) (ys : List Item) :
    (insertItem x ys).length ≤ ys.length + 1 := by
  induction ys with
  | nil => simp [insertItem]
  | cons y ys ih =>
      rw [insertItem]
      split
      · exact Nat.le_succ _
      · split
        · exact Nat.le_refl _
        · exact Nat.succ_le_succ ih

theorem length_ofList : ∀ xs : List Item, (ofList xs).items.length ≤ xs.length
  | [] => Nat.le_refl 0
  | x :: xs => Nat.le_trans (length_insertItem x _) (Nat.succ_le_succ (length_ofList xs))

end ItemSet

/-! ## Closure and goto -/

variable {g : Grammar}

theorem mem_predictions {x y : Item} :
    y ∈ predictions g x ↔ ∃ n rule, x.nextSymbol? g = some (.nonterminal n) ∧
      (y.rule, rule) ∈ g.rules.entries ∧ rule.head = n ∧ y.marker = 0 := by
  unfold predictions
  constructor
  · intro h
    split at h
    · next n hn =>
        obtain ⟨e, he, rfl⟩ := List.mem_map.mp h
        obtain ⟨hmem, hhead⟩ := List.mem_filter.mp he
        exact ⟨n, e.2, hn, hmem, of_decide_eq_true hhead, rfl⟩
    · cases h
  · rintro ⟨n, rule, hn, hmem, hhead, hmarker⟩
    rw [hn]
    refine List.mem_map.mpr ⟨(y.rule, rule), List.mem_filter.mpr ⟨hmem, decide_eq_true hhead⟩, ?_⟩
    rw [← hmarker]

/-- Each rule with the marker at the beginning. -/
def initialItems (g : Grammar) : List Item := g.rules.entries.map fun e => ⟨e.1, 0⟩

theorem predictions_subset (g : Grammar) (x : Item) : predictions g x ⊆ initialItems g := by
  intro y hy
  obtain ⟨n, rule, -, hmem, -, hmarker⟩ := mem_predictions.mp hy
  refine List.mem_map.mpr ⟨(y.rule, rule), hmem, ?_⟩
  rw [← hmarker]

theorem mem_closure {xs : List Item} {x : Item} :
    x ∈ (closure g xs).items ↔ ∃ y ∈ xs, Reaches (predictions g) y x := by
  -- the search does not leave the items to begin with and those of rules at their beginning
  have hlen : (xs ++ initialItems g).length ≤ xs.length + g.rules.size := by
    simp [initialItems, OrderedMap.size]
  rw [closure, ItemSet.mem_ofList]
  exact mem_reachable_iff
    (fun z _ y hy => List.mem_append_right xs (predictions_subset g z hy))
    (fun z hz => List.mem_append_left _ hz) hlen

theorem mem_goto {set : ItemSet} {s : Symbol} {x : Item} :
    x ∈ (goto g set s).items ↔
      ∃ y ∈ set.items, y.nextSymbol? g = some s ∧ Reaches (predictions g) y.advance x := by
  simp only [goto, mem_closure, advanceOver, List.mem_map, List.mem_filter, decide_eq_true_eq]
  constructor
  · rintro ⟨_, ⟨y, ⟨hy, hs⟩, rfl⟩, hx⟩
    exact ⟨y, hy, hs, hx⟩
  · rintro ⟨y, hy, hs, hx⟩
    exact ⟨y.advance, ⟨y, ⟨hy, hs⟩, rfl⟩, hx⟩

theorem ascending_goto (set : ItemSet) (s : Symbol) : (goto g set s).Ascending :=
  ItemSet.ascending_ofList _

/-- An item that predictions lead to is the first one or stands at its beginning. -/
theorem Reaches.marker {x y : Item} (h : Reaches (predictions g) x y) :
    y = x ∨ y.marker = 0 := by
  cases h with
  | refl => exact .inl rfl
  | tail _ h1 =>
      obtain ⟨-, -, -, -, -, hmarker⟩ := mem_predictions.mp h1
      exact .inr hmarker

/-! ## All sets of items -/

/-- The marker of the item is within or at the end of the body of a rule. -/
def Item.IsOf (g : Grammar) (x : Item) : Prop :=
  ∃ rule, (x.rule, rule) ∈ g.rules.entries ∧ x.marker.toNat ≤ rule.body.length

def allItems (g : Grammar) : List Item :=
  g.rules.entries.flatMap fun e =>
    (List.range (e.2.body.length + 1)).map fun i => ⟨e.1, .ofNat i⟩

theorem mem_allItems {x : Item} : x ∈ allItems g ↔ x.IsOf g := by
  simp only [allItems, List.mem_flatMap, List.mem_map, List.mem_range, Item.IsOf]
  constructor
  · rintro ⟨e, he, i, hi, rfl⟩
    exact ⟨e.2, he, Nat.le_trans (Nat.mod_le i _) (Nat.le_of_lt_succ hi)⟩
  · rintro ⟨rule, hr, hm⟩
    exact ⟨(x.rule, rule), hr, x.marker.toNat, Nat.lt_succ_of_le hm,
      Item.ext rfl x.marker.ofNat_toNat⟩

theorem length_allItems (g : Grammar) : (allItems g).length = itemCount g := by
  unfold allItems itemCount OrderedMap.values
  induction g.rules.entries with
  | nil => rfl
  | cons e es ih =>
      rw [List.flatMap_cons, List.length_append, ih]
      simp

def possibleSets (g : Grammar) : List ItemSet :=
  (ItemSet.ofList (allItems g)).items.sublists.map ItemSet.mk

theorem length_possibleSets (g : Grammar) :
    (possibleSets g).length ≤ Nat.pow 2 (itemCount g) := by
  rw [possibleSets, List.length_map, List.length_sublists, ← length_allItems]
  exact Nat.pow_le_pow_right (by decide) (ItemSet.length_ofList _)

theorem mem_possibleSets {set : ItemSet} (hset : set.Ascending)
    (h : ∀ x ∈ set.items, x.IsOf g) : set ∈ possibleSets g := by
  refine List.mem_map.mpr ⟨set.items, List.mem_sublists.mpr ?_, rfl⟩
  apply hset.sublist (ItemSet.ascending_ofList _)
  intro x hx
  exact ItemSet.mem_ofList.mpr (mem_allItems.mpr (h x hx))

theorem Item.IsOf.reaches {x y : Item} (hx : x.IsOf g) (h : Reaches (predictions g) x y) :
    y.IsOf g := by
  cases h with
  | refl => exact hx
  | tail _ h1 =>
      obtain ⟨n, rule, -, hmem, -, hmarker⟩ := mem_predictions.mp h1
      refine ⟨rule, hmem, ?_⟩
      rw [hmarker]
      exact Nat.zero_le _

theorem body_eq {r : RuleId} {rule : Rule} (h : g.rule? r = some rule) : g.body r = rule.body := by
  rw [Grammar.body, h]

/-- Only the items of a rule have a next symbol, and the marker can move over it. -/
theorem Item.isOf_advance {x : Item} {s : Symbol} (h : x.nextSymbol? g = some s) :
    x.advance.IsOf g := by
  have hlt := marker_lt_of_next h
  unfold Grammar.body at hlt
  split at hlt
  · next rule hr =>
      refine ⟨rule, OrderedMap.mem_entries_of_find? hr, ?_⟩
      rw [advance, UInt16.toNat_add, UInt16.toNat_one]
      exact Nat.le_trans (Nat.mod_le _ _) hlt
  · cases hlt

theorem goto_mem_possibleSets (set : ItemSet) (s : Symbol) :
    goto g set s ∈ possibleSets g := by
  apply mem_possibleSets (ascending_goto set s)
  intro x hx
  obtain ⟨y, -, hs, hyx⟩ := mem_goto.mp hx
  exact (Item.isOf_advance hs).reaches hyx

end ShiftReduce
