import ShiftReduce.Proofs.Automaton.States
import ShiftReduce.Proofs.Grammar.RenamedGrammars

/-! # The automaton of a grammar with other numbers

Other numbers for the rules put the items of a set into another order, and the sets of the
collection are found in another order as well. The automata differ in their numbers only.

- `Renaming.item`, `Renaming.itemSet`: an item, and a set of items, under the other numbers.
- `Renames.goto_itemSet`: closure and goto do not depend on the numbers.
- `Renames.mem_map_itemSets_iff`: the sets of one collection are those of the other one.
- `RenamesStates`: the states have other numbers, too.
- `RenamesStates.next?_eq`: so have the transitions.
-/

namespace ShiftReduce

/-! ## Items -/

namespace Renaming

variable (ρ : Renaming)

def item (x : Item) : Item := ⟨ρ.rules x.rule, x.marker⟩

@[simp] theorem symm_item (x : Item) : ρ.symm.item (ρ.item x) = x := by
  simp [item, symm]

@[simp] theorem item_symm (x : Item) : ρ.item (ρ.symm.item x) = x := by
  simp [item, symm]

def itemSet (set : ItemSet) : ItemSet := .ofList (set.items.map ρ.item)

theorem mem_itemSet {set : ItemSet} {x : Item} :
    x ∈ (ρ.itemSet set).items ↔ ρ.symm.item x ∈ set.items := by
  rw [itemSet, ItemSet.mem_ofList, List.mem_map]
  constructor
  · rintro ⟨y, hy, rfl⟩
    rwa [symm_item]
  · intro hx
    exact ⟨_, hx, ρ.item_symm x⟩

theorem ascending_itemSet (set : ItemSet) : (ρ.itemSet set).Ascending :=
  ItemSet.ascending_ofList _

theorem item_mem_itemSet {set : ItemSet} {x : Item} (hx : x ∈ set.items) :
    ρ.item x ∈ (ρ.itemSet set).items := by
  rwa [mem_itemSet, symm_item]

theorem symm_itemSet {set : ItemSet} (hset : set.Ascending) :
    ρ.symm.itemSet (ρ.itemSet set) = set := by
  apply (ρ.symm.ascending_itemSet _).eq_of_mem_iff hset
  intro x
  rw [mem_itemSet, mem_itemSet]
  show ρ.symm.item (ρ.item x) ∈ set.items ↔ x ∈ set.items
  rw [symm_item]

end Renaming

namespace Renames

variable {ρ : Renaming} {g h : Grammar}

theorem body_eq (hr : Renames ρ g h) (r : RuleId) :
    h.body (ρ.rules r) = ρ.symbols (g.body r) := by
  unfold Grammar.body
  cases hx : g.rule? r with
  | none =>
      rw [hr.rule?_eq_none hx]
      rfl
  | some x =>
      obtain ⟨y, hy, -, hbody⟩ := hr.exists_rule? hx
      rw [hy]
      exact hbody

theorem nextSymbol?_item (hr : Renames ρ g h) (x : Item) :
    (ρ.item x).nextSymbol? h = (x.nextSymbol? g).map ρ.symbol := by
  show (h.body (ρ.rules x.rule))[x.marker.toNat]? = _
  rw [hr.body_eq, Renaming.symbols, List.getElem?_map]
  rfl

theorem isComplete_item (hr : Renames ρ g h) (x : Item) :
    (ρ.item x).isComplete h = x.isComplete g := by
  show decide ((h.body (ρ.rules x.rule)).length ≤ x.marker.toNat) = _
  rw [hr.body_eq, Renaming.symbols, List.length_map]
  rfl

/-! ## Closure and goto -/

theorem predictions (hr : Renames ρ g h) {x y : Item} (hy : y ∈ predictions g x) :
    ρ.item y ∈ ShiftReduce.predictions h (ρ.item x) := by
  obtain ⟨n, rule, hn, hmem, hhead, hmarker⟩ := mem_predictions.mp hy
  obtain ⟨rule', hrule', hhead', -⟩ := hr.exists_rule?
    (OrderedMap.find?_of_mem_entries hr.source.rule_keys hmem)
  refine mem_predictions.mpr ⟨ρ.nonterminals n, rule', ?_, ?_, ?_, hmarker⟩
  · rw [hr.nextSymbol?_item, hn]
    rfl
  · exact OrderedMap.mem_entries_of_find? hrule'
  · rw [hhead', hhead]

theorem reaches (hr : Renames ρ g h) {x y : Item}
    (hxy : Reaches (ShiftReduce.predictions g) x y) :
    Reaches (ShiftReduce.predictions h) (ρ.item x) (ρ.item y) := by
  induction hxy with
  | refl => exact .refl
  | tail _ hstep ih => exact ih.tail (hr.predictions hstep)

theorem item_mem_goto (hr : Renames ρ g h) {set : ItemSet} {X : Symbol} {x : Item}
    (hx : x ∈ (goto g set X).items) :
    ρ.item x ∈ (goto h (ρ.itemSet set) (ρ.symbol X)).items := by
  obtain ⟨y, hy, hX, hyx⟩ := mem_goto.mp hx
  refine mem_goto.mpr ⟨ρ.item y, ρ.item_mem_itemSet hy, ?_, hr.reaches hyx⟩
  rw [hr.nextSymbol?_item, hX]
  rfl

theorem goto_itemSet (hr : Renames ρ g h) {set : ItemSet} (hset : set.Ascending) (X : Symbol) :
    goto h (ρ.itemSet set) (ρ.symbol X) = ρ.itemSet (goto g set X) := by
  apply (ascending_goto _ _).eq_of_mem_iff (ρ.ascending_itemSet _)
  intro x
  constructor
  · intro hx
    -- the renaming back takes the image to the set itself, which is in order
    have hback := hr.symm.item_mem_goto hx
    rwa [ρ.symm_itemSet hset, ρ.symm_symbol, ← ρ.mem_itemSet] at hback
  · intro hx
    have himage := hr.item_mem_goto (ρ.mem_itemSet.mp hx)
    rwa [ρ.item_symm] at himage

theorem symbol_mem_nextSymbols (hr : Renames ρ g h) {set : ItemSet} {X : Symbol}
    (hX : X ∈ nextSymbols g set) : ρ.symbol X ∈ nextSymbols h (ρ.itemSet set) := by
  obtain ⟨x, hx, hnext⟩ := Augmented.mem_nextSymbols.mp hX
  refine Augmented.mem_nextSymbols.mpr ⟨ρ.item x, ρ.item_mem_itemSet hx, ?_⟩
  rw [hr.nextSymbol?_item, hnext]
  rfl

end Renames

/-! ## The collection -/

theorem Renaming.nodup_itemSets (ρ : Renaming) {g : Grammar} {a : Augmented}
    (ha : Augments g a) : (a.itemSets.map ρ.itemSet).Nodup := by
  apply List.Nodup.map_on _ Augmented.nodup_itemSets
  intro set hset set' hset' he
  rw [← ρ.symm_itemSet (Augmented.ascending_of_mem_itemSets ha hset), he,
    ρ.symm_itemSet (Augmented.ascending_of_mem_itemSets ha hset')]

namespace Renames

open Augmented

variable {ρ : Renaming} {g h : Grammar} {a b : Augmented}

section

variable (hr : Renames ρ a.grammar b.grammar) (ha : Augments g a) (hb : Augments h b)

include hr ha hb

/-- The new rule is the only one of the new symbol. -/
theorem acceptRule_eq : ρ.rules a.acceptRule = b.acceptRule := by
  obtain ⟨y, hy, hhead, -⟩ := hr.exists_rule? ha.rule?_accept
  by_contra hne
  -- another rule is one of the smaller grammar, which does not declare the new symbol
  have hmem := hb.mem_rules_of_ne hy hne
  have hdeclared := hb.inner.heads y (OrderedMap.mem_values.mpr ⟨_, hmem⟩)
  rw [hhead, hr.start] at hdeclared
  exact hb.start_fresh hdeclared

theorem item_mem_startItems {x : Item} (hx : x ∈ a.startItems.items) :
    ρ.item x ∈ b.startItems.items := by
  have himage := hr.reaches (mem_startItems.mp hx)
  rw [Renaming.item, hr.acceptRule_eq ha hb] at himage
  exact mem_startItems.mpr himage

theorem startItems_eq : b.startItems = ρ.itemSet a.startItems := by
  apply ascending_startItems.eq_of_mem_iff (ρ.ascending_itemSet _)
  intro x
  rw [ρ.mem_itemSet]
  constructor
  · exact hr.symm.item_mem_startItems hb ha
  · intro hx
    have himage := hr.item_mem_startItems ha hb hx
    rwa [ρ.item_symm] at himage

theorem itemSet_mem_itemSets {set : ItemSet} (hset : set ∈ a.itemSets) :
    ρ.itemSet set ∈ b.itemSets := by
  rw [mem_itemSets hb, hr.startItems_eq ha hb]
  induction (mem_itemSets ha).mp hset with
  | refl => exact .refl
  | @tail set next hreach hnext ih =>
      have hmem := (mem_itemSets ha).mpr hreach
      obtain ⟨X, hX, rfl⟩ := mem_successors.mp hnext
      rw [← hr.goto_itemSet (ascending_of_mem_itemSets ha hmem)]
      exact (ih hmem).tail (mem_successors.mpr ⟨_, hr.symbol_mem_nextSymbols hX, rfl⟩)

theorem mem_map_itemSets_iff (set : ItemSet) :
    set ∈ a.itemSets.map ρ.itemSet ↔ set ∈ b.itemSets := by
  constructor
  · intro hset
    obtain ⟨set, hmem, rfl⟩ := List.mem_map.mp hset
    exact hr.itemSet_mem_itemSets ha hb hmem
  · intro hset
    refine List.mem_map.mpr ⟨_, hr.symm.itemSet_mem_itemSets hb ha hset, ?_⟩
    exact ρ.symm.symm_itemSet (ascending_of_mem_itemSets hb hset)

end

end Renames

/-! ## The states -/

/-- The states of the second automaton have the items of those of the first one, under other
numbers. -/
structure RenamesStates (ρ : Renaming) (σ : Equiv.Perm StateId) (g h : Grammar)
    (a b : Augmented) : Prop extends Renames ρ a.grammar b.grammar where
  first : Augments g a
  second : Augments h b
  states : ∀ s, b.itemSets[σ s]? = (a.itemSets[s]?).map ρ.itemSet

theorem Renames.exists_renamesStates {ρ : Renaming} {g h : Grammar} {a b : Augmented}
    (hr : Renames ρ a.grammar b.grammar) (ha : Augments g a) (hb : Augments h b) :
    ∃ σ, RenamesStates ρ σ g h a b := by
  obtain ⟨σ, hσ⟩ := exists_perm_of_mem_iff (ρ.nodup_itemSets ha) Augmented.nodup_itemSets
    (hr.mem_map_itemSets_iff ha hb)
  refine ⟨σ, hr, ha, hb, fun s => ?_⟩
  rw [hσ, List.getElem?_map]

namespace RenamesStates

open Augmented

variable {ρ : Renaming} {σ : Equiv.Perm StateId} {g h : Grammar} {a b : Augmented}

theorem symm (hr : RenamesStates ρ σ g h a b) : RenamesStates ρ.symm σ.symm h g b a where
  toRenames := hr.toRenames.symm
  first := hr.second
  second := hr.first
  states := by
    intro s
    have hs := hr.states (σ.symm s)
    rw [Equiv.apply_symm_apply] at hs
    rw [hs, Option.map_map]
    cases hset : a.itemSets[σ.symm s]? with
    | none => rfl
    | some set =>
        have hascending := ascending_of_mem_itemSets hr.first (List.mem_of_getElem? hset)
        exact congrArg some (ρ.symm_itemSet hascending).symm

theorem length_states (hr : RenamesStates ρ σ g h a b) :
    a.automaton.states.length = b.automaton.states.length := by
  have hperm := (List.perm_ext_iff_of_nodup (ρ.nodup_itemSets hr.first)
    nodup_itemSets).mpr (hr.mem_map_itemSets_iff hr.first hr.second)
  simpa [automaton] using hperm.length_eq

theorem state_eq (hr : RenamesStates ρ σ g h a b) {s s' : StateId} {set : ItemSet}
    (hs : a.itemSets[s]? = some set) (hs' : b.itemSets[s']? = some (ρ.itemSet set)) :
    σ s = s' := by
  have himage := hr.states s
  rw [hs, Option.map_some] at himage
  exact position_unique nodup_itemSets himage hs'

theorem start_eq (hr : RenamesStates ρ σ g h a b) : σ Automaton.start = Automaton.start := by
  apply hr.state_eq itemSets_start
  rw [itemSets_start, hr.startItems_eq hr.first hr.second]

theorem holds (hr : RenamesStates ρ σ g h a b) {s : StateId} {x : Item} (hx : a.Holds s x) :
    b.Holds (σ s) (ρ.item x) := by
  obtain ⟨set, hset, hmem⟩ := hx
  refine ⟨ρ.itemSet set, ?_, ρ.item_mem_itemSet hmem⟩
  rw [hr.states, hset]
  rfl

theorem next? (hr : RenamesStates ρ σ g h a b) {s s' : StateId} {X : Symbol}
    (hnext : a.automaton.next? s X = some s') :
    b.automaton.next? (σ s) (ρ.symbol X) = some (σ s') := by
  obtain ⟨set, hset, hX, rfl⟩ := next?_eq_some_iff.mp hnext
  have hmem := List.mem_of_getElem? hset
  have hgoto := hr.goto_itemSet (ascending_of_mem_itemSets hr.first hmem) X
  have hX' := hr.symbol_mem_nextSymbols hX
  have himage : b.itemSets[σ s]? = some (ρ.itemSet set) := by
    rw [hr.states, hset]
    rfl
  refine next?_eq_some_iff.mpr ⟨ρ.itemSet set, himage, hX', ?_⟩
  rw [hgoto]
  symm
  apply hr.state_eq (List.getElem?_idxOf (goto_mem_itemSets hr.first hmem hX))
  apply List.getElem?_idxOf
  rw [← hgoto]
  exact goto_mem_itemSets hr.second (List.mem_of_getElem? himage) hX'

/-- A transition leads to the state that has the number of the other one. -/
theorem next?_eq (hr : RenamesStates ρ σ g h a b) (s : StateId) (X : Symbol) :
    b.automaton.next? (σ s) (ρ.symbol X) = (a.automaton.next? s X).map σ := by
  apply eq_map_of_iff
  intro s'
  constructor
  · intro hnext
    have hback := hr.symm.next? hnext
    rwa [Equiv.symm_apply_apply, Equiv.symm_apply_apply, ρ.symm_symbol] at hback
  · exact hr.next?

end RenamesStates

end ShiftReduce
