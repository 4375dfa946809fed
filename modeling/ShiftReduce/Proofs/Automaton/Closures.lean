import Mathlib.Order.Bounds.Basic
import ShiftReduce.Automaton.ClosureSearch
import ShiftReduce.Proofs.Automaton.ItemSets
import ShiftReduce.Proofs.Grammar.Sources

/-! # Closures

A closure is the least set that predictions do not leave, and its representation is determined by
its members.

- `ItemSet.collect_eq_ofList`, `Ascending.search_iff`: sorting items yields the set of these items,
  and looking for an item by halving the set tells its membership.
- `predictions_rulesByHead`, `closes_iff`: the search comes to an end, and the set of what it
  finds is the closure.
- `IsClosed`, `isLeast_closure`: what a closure is.
- `isGoto_goto`: what a goto is, and what becomes of a marker that overflows.
- `closure_exact`: all of this, and what follows from it.
-/

namespace ShiftReduce

/-! ## Sorted items -/

namespace Item

theorem notAfter_iff {x y : Item} : x.notAfter y = true ↔ x = y ∨ x.before y = true := by
  rw [notAfter, Bool.not_eq_true', ← Bool.not_eq_true]
  constructor
  · intro h
    by_cases hxy : x = y
    · exact .inl hxy
    · exact .inr (before_of_ne (Ne.symm hxy) h)
  · rintro (rfl | h) h'
    · exact before_irrefl x h'
    · exact before_irrefl x (before_trans h h')

theorem notAfter_trans {x y z : Item} (hxy : x.notAfter y = true) (hyz : y.notAfter z = true) :
    x.notAfter z = true := by
  rw [notAfter_iff] at *
  rcases hxy with rfl | hxy
  · exact hyz
  · rcases hyz with rfl | hyz
    · exact .inr hxy
    · exact .inr (before_trans hxy hyz)

theorem notAfter_total (x y : Item) : (x.notAfter y || y.notAfter x) = true := by
  rw [Bool.or_eq_true, or_iff_not_imp_left]
  intro h
  rw [notAfter, Bool.not_eq_true', Bool.not_eq_false] at h
  exact notAfter_iff.mpr (.inr h)

instance : Std.Antisymm fun x y : Item => x.notAfter y = true where
  antisymm x y hxy hyx := by
    rcases notAfter_iff.mp hxy with rfl | hxy
    · rfl
    · rw [notAfter, hxy] at hyx
      cases hyx

theorem pairwise_mergeSort (xs : List Item) :
    (xs.mergeSort notAfter).Pairwise fun x y => x.notAfter y = true :=
  @List.pairwise_mergeSort _ notAfter (fun _ _ _ => notAfter_trans) notAfter_total xs

end Item

namespace ItemSet

/-- In a sorted list all copies of an item stand together, so dropping those that follow their like
leaves one of each. -/
theorem items_collect (xs : List Item) :
    (collect xs).items = (xs.mergeSort Item.notAfter).dedup :=
  (Item.pairwise_mergeSort xs).destutter_eq_dedup

theorem mem_collect {x : Item} {xs : List Item} : x ∈ (collect xs).items ↔ x ∈ xs := by
  rw [items_collect, List.mem_dedup, List.mem_mergeSort]

theorem ascending_collect (xs : List Item) : (collect xs).Ascending := by
  have hsorted := (Item.pairwise_mergeSort xs).sublist (List.dedup_sublist _)
  rw [Ascending, items_collect]
  exact (hsorted.and (List.nodup_dedup _)).imp fun h => (Item.notAfter_iff.mp h.1).resolve_left h.2

theorem collect_eq_ofList (xs : List Item) : collect xs = ofList xs := by
  apply (ascending_collect xs).eq_of_mem_iff (ascending_ofList xs)
  intro x
  rw [mem_collect, mem_ofList]

/-! ## Looking for an item -/

theorem before_iff_position {items : List Item} (h : items.Pairwise fun x y => x.before y = true)
    {x y : Item} {i j : Nat} (hx : items[i]? = some x) (hy : items[j]? = some y) :
    x.before y = true ↔ i < j := by
  obtain ⟨hi, rfl⟩ := List.getElem?_eq_some_iff.mp hx
  obtain ⟨hj, rfl⟩ := List.getElem?_eq_some_iff.mp hy
  rw [List.pairwise_iff_getElem] at h
  constructor
  · intro hbefore
    rcases Nat.lt_trichotomy i j with hij | rfl | hji
    · exact hij
    · exact absurd hbefore (Item.before_irrefl _)
    · exact absurd (Item.before_trans hbefore (h j i hj hi hji)) (Item.before_irrefl _)
  · exact h i j hi hj

/-- If the item is among those that are looked at, then the position is its own: the middle one
comes after it if and only if it is in the lower half. -/
theorem bisect_eq {items : List Item} (h : items.Pairwise fun x y => x.before y = true)
    {x : Item} {i base size : Nat} (hx : items[i]? = some x) (hlow : base ≤ i)
    (hhigh : i < base + size) (hsize : base + size ≤ items.length) :
    bisect items x base size = i := by
  fun_induction bisect items x base size with
  | case1 base size hone => omega
  | case2 base size hmany half hnone =>
      rw [List.getElem?_eq_none_iff] at hnone
      omega
  | case3 base size hmany half y hy ih =>
      have hmiddle := before_iff_position h hx hy
      have hhalf : half = size / 2 := rfl
      by_cases hbefore : x.before y = true
      · rw [hmiddle] at hbefore
        simp only [hmiddle, hbefore, if_true, dif_pos] at ih ⊢
        exact ih hlow (by omega) (by omega)
      · rw [hmiddle] at hbefore
        simp only [hmiddle, hbefore, if_false, dif_neg, not_false_eq_true] at ih ⊢
        exact ih (by omega) (by omega) (by omega)

theorem Ascending.search_iff {s : ItemSet} (hs : s.Ascending) {x : Item} :
    s.search x = true ↔ x ∈ s.items := by
  rw [search, beq_iff_eq]
  constructor
  · exact List.mem_of_getElem?
  · intro hx
    obtain ⟨i, hi⟩ := List.mem_iff_getElem?.mp hx
    have hlt : i < s.items.length := (List.getElem?_eq_some_iff.mp hi).1
    rw [bisect_eq hs hi (Nat.zero_le i) (by omega) (by omega), hi]

end ItemSet

/-! ## The search -/

theorem RulesByHead.rulesOf_foldl_add {es : List (RuleId × Rule)} {index : RulesByHead}
    {n : NonterminalId} : (es.foldl add index).rulesOf n =
      index.rulesOf n ++ (es.filter (·.2.head = n)).map (·.1) := by
  induction es generalizing index with
  | nil => simp
  | cons e es ih =>
      rw [List.foldl_cons, ih, List.filter_cons]
      have hadd : (index.add e).rulesOf n =
          if e.2.head = n then index.rulesOf n ++ [e.1] else index.rulesOf n := by
        rw [rulesOf, add, OrderedMap.find?_insert]
        by_cases hn : n = e.2.head
        · subst hn
          simp
        · rw [if_neg hn, if_neg (Ne.symm hn), rulesOf]
      by_cases hn : e.2.head = n
      · simp [hadd, hn]
      · simp [hadd, hn]

theorem predictions_rulesByHead (g : Grammar) (x : Item) :
    g.rulesByHead.predictions g x = predictions g x := by
  have hnone : ∀ n, (∅ : RulesByHead).rulesOf n = [] := fun _ => rfl
  rw [RulesByHead.predictions, predictions]
  cases x.nextSymbol? g with
  | none => rfl
  | some s =>
      cases s with
      | terminal t => rfl
      | nonterminal n =>
          dsimp only
          rw [Grammar.rulesByHead, RulesByHead.rulesOf_foldl_add, hnone, List.nil_append,
            List.map_map]
          rfl

/-- Whatever order the search goes in, its end is the closure. -/
theorem closes_iff {g : Grammar} {xs : List Item} {set : ItemSet} :
    Closes g xs set ↔ set = closure g xs := by
  have hindex : g.rulesByHead.predictions g = predictions g := funext (predictions_rulesByHead g)
  have hcollect : ∀ found, Searches (predictions g) xs found →
      ItemSet.collect found = closure g xs := by
    intro found hfound
    apply (ItemSet.ascending_collect found).eq_of_mem_iff (ItemSet.ascending_ofList _)
    intro x
    rw [ItemSet.mem_collect, mem_of_searches hfound]
    exact mem_closure.symm
  unfold Closes
  rw [hindex]
  constructor
  · rintro ⟨found, hfound, rfl⟩
    exact hcollect found hfound
  · rintro rfl
    obtain ⟨found, hfound⟩ : ∃ found, Searches (predictions g) xs found :=
      exists_searches (U := xs ++ initialItems g)
        (fun z _ y hy => List.mem_append_right xs (predictions_subset g z hy))
        (fun z hz => List.mem_append_left _ hz)
    exact ⟨found, hfound, hcollect found hfound⟩

/-! ## What a closure is -/

/-- With `[A -> α . X β]` there is every `[X -> . γ]`. -/
def Grammar.IsClosed (g : Grammar) (S : Set Item) : Prop :=
  ∀ x ∈ S, ∀ X, x.nextSymbol? g = some (.nonterminal X) →
    ∀ r rule, (r, rule) ∈ g.rules.entries → rule.head = X → ⟨r, 0⟩ ∈ S

variable {g : Grammar}

theorem Grammar.isClosed_iff {S : Set Item} :
    g.IsClosed S ↔ ∀ x ∈ S, ∀ y ∈ predictions g x, y ∈ S := by
  constructor
  · intro h x hx y hy
    obtain ⟨X, rule, hnext, hrule, hhead, hmarker⟩ := mem_predictions.mp hy
    have hmem := h x hx X hnext y.rule rule hrule hhead
    rwa [← hmarker] at hmem
  · intro h x hx X hnext r rule hrule hhead
    exact h x hx ⟨r, 0⟩ (mem_predictions.mpr ⟨X, rule, hnext, hrule, hhead, rfl⟩)

theorem isLeast_closure (xs : List Item) :
    IsLeast {S : Set Item | (∀ x ∈ xs, x ∈ S) ∧ g.IsClosed S} {x | x ∈ (closure g xs).items} := by
  constructor
  · refine ⟨fun x hx => mem_closure.mpr ⟨x, hx, .refl⟩, Grammar.isClosed_iff.mpr ?_⟩
    intro x hx y hy
    obtain ⟨z, hz, hreach⟩ := mem_closure.mp hx
    exact mem_closure.mpr ⟨z, hz, hreach.tail hy⟩
  · rintro S ⟨hxs, hclosed⟩ x hx
    obtain ⟨y, hy, hreach⟩ := mem_closure.mp hx
    induction hreach with
    | refl => exact hxs y hy
    | tail hreach hstep ih =>
        exact Grammar.isClosed_iff.mp hclosed _ (ih (mem_closure.mpr ⟨y, hy, hreach⟩)) _ hstep

theorem ascending_closure (xs : List Item) : (closure g xs).Ascending :=
  ItemSet.ascending_ofList _

theorem closure_subset {xs ys : List Item} (h : xs ⊆ (closure g ys).items) :
    (closure g xs).items ⊆ (closure g ys).items :=
  (isLeast_closure xs).2 ⟨h, (isLeast_closure ys).1.2⟩

theorem subset_closure (xs : List Item) : xs ⊆ (closure g xs).items := (isLeast_closure xs).1.1

/-- A closure operator on items, with closures as sorted lists. -/
structure IsClosure (g : Grammar) (cl : List Item → ItemSet) : Prop where
  /-- The items are in strictly ascending order. -/
  ascending : ∀ xs, (cl xs).Ascending
  least : ∀ xs, IsLeast {S : Set Item | (∀ x ∈ xs, x ∈ S) ∧ g.IsClosed S}
    {x | x ∈ (cl xs).items}
  idempotent : ∀ xs, cl (cl xs).items = cl xs
  monotone : ∀ xs ys, xs ⊆ ys → (cl xs).items ⊆ (cl ys).items
  /-- Neither the order of the items matters nor how often one is repeated. -/
  congr : ∀ xs ys, (∀ x, x ∈ xs ↔ x ∈ ys) → cl xs = cl ys
  union : ∀ xs ys x, x ∈ (cl (xs ++ ys)).items ↔ x ∈ (cl xs).items ∨ x ∈ (cl ys).items
  /-- Closures are equal if and only if they have the same members. -/
  canonical : ∀ xs ys, cl xs = cl ys ↔ ∀ x, x ∈ (cl xs).items ↔ x ∈ (cl ys).items
  search : ∀ xs x, (cl xs).search x = true ↔ x ∈ (cl xs).items

theorem isClosure_closure (g : Grammar) : IsClosure g (closure g) where
  ascending := ascending_closure
  least := isLeast_closure
  idempotent xs := by
    apply (ascending_closure _).eq_of_mem_iff (ascending_closure _)
    exact fun x => ⟨fun hx => closure_subset (List.Subset.refl _) hx, fun hx => subset_closure _ hx⟩
  monotone xs ys h := closure_subset (List.Subset.trans h (subset_closure ys))
  congr xs ys h := by
    apply (ascending_closure _).eq_of_mem_iff (ascending_closure _)
    simp only [mem_closure, h, implies_true]
  union xs ys x := by
    simp only [mem_closure, List.mem_append, or_and_right, exists_or]
  canonical xs ys :=
    ⟨fun h x => h ▸ Iff.rfl, (ascending_closure xs).eq_of_mem_iff (ascending_closure ys)⟩
  search xs _ := (ascending_closure xs).search_iff

/-! ## Gotos -/

theorem goto_eq {set : ItemSet} {X : Symbol} {ys : List Item}
    (h : ∀ y, y ∈ ys ↔ ∃ x ∈ set.items, x.nextSymbol? g = some X ∧ y = x.advance) :
    goto g set X = closure g ys := by
  apply (isClosure_closure g).congr
  intro y
  rw [h, advanceOver, List.mem_map]
  simp only [List.mem_filter, decide_eq_true_eq, and_assoc]
  constructor
  · rintro ⟨x, hx, hnext, rfl⟩
    exact ⟨x, hx, hnext, rfl⟩
  · rintro ⟨x, hx, hnext, rfl⟩
    exact ⟨x, hx, hnext, rfl⟩

theorem isEmpty_goto_iff {set : ItemSet} {X : Symbol} :
    (goto g set X).isEmpty = true ↔ ∀ x ∈ set.items, x.nextSymbol? g ≠ some X := by
  rw [ItemSet.isEmpty, List.isEmpty_iff, List.eq_nil_iff_forall_not_mem]
  constructor
  · intro h x hx hnext
    exact h x.advance (mem_goto.mpr ⟨x, hx, hnext, .refl⟩)
  · intro h y hy
    obtain ⟨x, hx, hnext, -⟩ := mem_goto.mp hy
    exact h x hx hnext

/-- The goto of sets of items. -/
structure IsGoto (g : Grammar) (next : ItemSet → Symbol → ItemSet) : Prop where
  /-- It is the closure of the items that have the symbol after their markers, with these moved by
  one, as long as none of these markers is the last number of 16 bits. -/
  closure : ∀ (set : ItemSet) X ys,
    (∀ x ∈ set.items, x.nextSymbol? g = some X → x.marker.toNat + 1 < UInt16.size) →
    (∀ y, y ∈ ys ↔ ∃ x ∈ set.items, x.nextSymbol? g = some X ∧
      y.rule = x.rule ∧ y.marker.toNat = x.marker.toNat + 1) →
    next set X = ShiftReduce.closure g ys
  /-- A marker that is begins again, within a rule that has more symbols than that. -/
  overflow : ∀ (set : ItemSet) X, ∀ x ∈ set.items, x.nextSymbol? g = some X →
    x.marker.toNat + 1 = UInt16.size → ⟨x.rule, 0⟩ ∈ (next set X).items
  empty : ∀ (set : ItemSet) X,
    (next set X).isEmpty = true ↔ ∀ x ∈ set.items, x.nextSymbol? g ≠ some X

theorem isGoto_goto (g : Grammar) : IsGoto g (goto g) where
  closure set X ys hroom h := by
    apply goto_eq
    intro y
    rw [h]
    refine exists_congr fun x => and_congr_right fun hx => and_congr_right fun hnext => ?_
    exact (Item.eq_advance_iff (hroom x hx hnext)).symm
  overflow set X x hx hnext hlast :=
    mem_goto.mpr ⟨x, hx, hnext, Item.advance_eq_of_overflow hlast ▸ .refl⟩
  empty _ _ := isEmpty_goto_iff

end ShiftReduce
