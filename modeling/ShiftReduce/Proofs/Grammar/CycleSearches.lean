import ShiftReduce.Grammar.CycleSearch
import ShiftReduce.Proofs.Grammar.Cycles
import ShiftReduce.Search.BreadthFirst

/-! # The search for cycles finds them

- `mem_ends_unitEdges`: the edges that are collected are the unit steps.
- `exists_comesBack`: a search comes to an end, since nothing is visited twice.
- `ComesBack.result_iff`: it finds what the pending nonterminals reach.
- `comesBack_unitEdges`: so it tells whether a nonterminal is cyclic.
-/

namespace ShiftReduce

/-! ## Edges -/

namespace UnitEdges

theorem mem_ends_add {edges : UnitEdges} {e : NonterminalId × NonterminalId}
    {n m : NonterminalId} : m ∈ (edges.add e).ends n ↔ m ∈ edges.ends n ∨ (n, m) = e := by
  obtain ⟨k, l⟩ := e
  rw [ends, add, OrderedMap.find?_insert]
  by_cases hn : n = k
  · subst hn
    rw [if_pos rfl, Option.getD_some, mem_addNew, List.mem_singleton, Prod.mk.injEq]
    simp
  · rw [if_neg hn, Prod.mk.injEq]
    simp [hn, ends]

theorem mem_ends_foldl_add {es : List (NonterminalId × NonterminalId)} {edges : UnitEdges}
    {n m : NonterminalId} : m ∈ (es.foldl add edges).ends n ↔ m ∈ edges.ends n ∨ (n, m) ∈ es := by
  induction es generalizing edges with
  | nil => simp
  | cons e es ih => rw [List.foldl_cons, ih, mem_ends_add, List.mem_cons, or_assoc]

end UnitEdges

theorem mem_ends_unitEdges {g : Grammar} {first : FirstSets} {n m : NonterminalId} :
    m ∈ (g.unitEdges first).ends n ↔ m ∈ unitSteps g first n := by
  have hnone : (∅ : UnitEdges).ends n = [] := rfl
  rw [Grammar.unitEdges, UnitEdges.mem_ends_foldl_add, hnone]
  simp only [unitSteps, Grammar.rulesOf, List.mem_flatMap, List.mem_filter, List.mem_map,
    decide_eq_true_eq, Prod.mk.injEq, List.not_mem_nil, false_or]
  constructor
  · rintro ⟨r, hr, k, hk, rfl, rfl⟩
    exact ⟨r, ⟨hr, rfl⟩, hk⟩
  · rintro ⟨r, ⟨hr, rfl⟩, hm⟩
    exact ⟨r, hr, m, hm, rfl, rfl⟩

theorem reaches_ends_unitEdges (g : Grammar) (first : FirstSets) :
    Reaches (g.unitEdges first).ends = Reaches (unitSteps g first) := by
  unfold Reaches
  congr 1
  funext n m
  exact propext mem_ends_unitEdges

/-! ## Searches -/

variable {edges : UnitEdges} {target : NonterminalId}

/-- There is one less pending after each step, unless a nonterminal is visited for the first time,
which happens once for each. -/
theorem exists_comesBack {U : List NonterminalId} (hU : ∀ n ∈ U, ∀ m ∈ edges.ends n, m ∈ U)
    {visited pending : List NonterminalId} (hnodup : visited.Nodup)
    (hvisited : ∀ n ∈ visited, n ∈ U) (hpending : ∀ n ∈ pending, n ∈ U) :
    ∃ result, ComesBack edges target visited pending result := by
  -- outside by what is left to visit, inside by what is pending
  induction hleft : U.length - visited.length using Nat.strong_induction_on
    generalizing visited pending with
  | _ left ih =>
      induction pending with
      | nil => exact ⟨false, .exhausted⟩
      | cons n pending ihpending =>
          rw [List.forall_mem_cons] at hpending
          by_cases hn : n = target
          · subst hn
            exact ⟨true, .found⟩
          by_cases hseen : n ∈ visited
          · obtain ⟨result, h⟩ := ihpending hpending.2
            exact ⟨result, .again hn hseen h⟩
          · have hnodup' : (visited ++ [n]).Nodup :=
              hnodup.append (List.nodup_singleton n) (List.disjoint_singleton.mpr hseen)
            have hvisited' : ∀ m ∈ visited ++ [n], m ∈ U := by
              simpa [or_imp, forall_and] using ⟨hvisited, hpending.1⟩
            have hpending' : ∀ m ∈ (edges.ends n).reverse ++ pending, m ∈ U := by
              simpa [or_imp, forall_and] using ⟨hU n hpending.1, hpending.2⟩
            have hlength := (hnodup'.subperm hvisited').length_le
            rw [List.length_append, List.length_singleton] at hlength
            have hless : U.length - (visited ++ [n]).length < left := by
              rw [List.length_append, List.length_singleton]
              omega
            obtain ⟨result, h⟩ := ih _ hless hnodup' hvisited' hpending' rfl
            exact ⟨result, .visit hn hseen h⟩

/-- What is found is reached from something that was pending. -/
theorem ComesBack.reaches {visited pending : List NonterminalId} {result : Bool}
    (h : ComesBack edges target visited pending result) (hresult : result = true) :
    ∃ n ∈ pending, Reaches edges.ends n target := by
  induction h with
  | exhausted => cases hresult
  | found => exact ⟨target, List.mem_cons_self, .refl⟩
  | again _ _ _ ih =>
      obtain ⟨n, hn, hreach⟩ := ih hresult
      exact ⟨n, List.mem_cons_of_mem _ hn, hreach⟩
  | @visit visited pending n _ _ _ _ ih =>
      obtain ⟨m, hm, hreach⟩ := ih hresult
      rcases List.mem_append.mp hm with hm | hm
      · exact ⟨n, List.mem_cons_self, hreach.head (List.mem_reverse.mp hm)⟩
      · exact ⟨m, List.mem_cons_of_mem n hm, hreach⟩

/-- When nothing is pending any more, no edge leaves what has been visited. -/
theorem ComesBack.exists_closed {visited pending : List NonterminalId} {result : Bool}
    (h : ComesBack edges target visited pending result) (hresult : result = false)
    (htarget : target ∉ visited)
    (hedges : ∀ n ∈ visited, ∀ m ∈ edges.ends n, m ∈ visited ∨ m ∈ pending) :
    ∃ closed : List NonterminalId, target ∉ closed ∧ (∀ n ∈ pending, n ∈ closed) ∧
      (∀ n ∈ visited, n ∈ closed) ∧ ∀ n ∈ closed, ∀ m ∈ edges.ends n, m ∈ closed := by
  induction h with
  | @exhausted visited =>
      refine ⟨visited, htarget, by simp, fun n hn => hn, fun n hn m hm => ?_⟩
      exact (hedges n hn m hm).resolve_right List.not_mem_nil
  | found => cases hresult
  | @again visited pending n _ _ seen _ ih =>
      have hedges' : ∀ k ∈ visited, ∀ m ∈ edges.ends k, m ∈ visited ∨ m ∈ pending := by
        intro k hk m hm
        rcases hedges k hk m hm with hm | hm
        · exact .inl hm
        · rcases List.mem_cons.mp hm with rfl | hm
          · exact .inl seen
          · exact .inr hm
      obtain ⟨closed, htarget', hpending, hvisited, hclosed⟩ := ih hresult htarget hedges'
      refine ⟨closed, htarget', ?_, hvisited, hclosed⟩
      rw [List.forall_mem_cons]
      exact ⟨hvisited n seen, hpending⟩
  | @visit visited pending n _ other _ _ ih =>
      have hnew : target ∉ visited ++ [n] := by simpa [htarget] using Ne.symm other
      have hedges' : ∀ k ∈ visited ++ [n], ∀ m ∈ edges.ends k,
          m ∈ visited ++ [n] ∨ m ∈ (edges.ends n).reverse ++ pending := by
        intro k hk m hm
        rw [List.mem_append, List.mem_singleton, List.mem_append, List.mem_reverse]
        rcases List.mem_append.mp hk with hk | hk
        · rcases hedges k hk m hm with hm | hm
          · exact .inl (.inl hm)
          · rcases List.mem_cons.mp hm with rfl | hm
            · exact .inl (.inr rfl)
            · exact .inr (.inr hm)
        · rw [List.mem_singleton.mp hk] at hm
          exact .inr (.inl hm)
      obtain ⟨closed, htarget', hpending, hvisited, hclosed⟩ := ih hresult hnew hedges'
      refine ⟨closed, htarget', ?_, ?_, hclosed⟩
      · rw [List.forall_mem_cons]
        exact ⟨hvisited n (by simp), fun m hm => hpending m (List.mem_append_right _ hm)⟩
      · exact fun m hm => hvisited m (List.mem_append_left _ hm)

/-- Nothing has been visited yet. -/
theorem ComesBack.result_iff {pending : List NonterminalId} {result : Bool}
    (h : ComesBack edges target [] pending result) :
    result = true ↔ ∃ n ∈ pending, Reaches edges.ends n target := by
  refine ⟨h.reaches, ?_⟩
  rintro ⟨n, hn, hreach⟩
  rw [← Bool.not_eq_false]
  intro hresult
  obtain ⟨closed, htarget, hpending, -, hclosed⟩ := h.exists_closed hresult (by simp) (by simp)
  exact htarget (hreach.mem_of_closed hclosed (hpending n hn))

/-- The search from a declared nonterminal comes to an end, and tells whether it is cyclic. -/
theorem comesBack_unitEdges {g : Grammar} (hg : g.WellFormed) (first : FirstSets)
    {n : NonterminalId} (hn : n ∈ g.nonterminals.keys) :
    ComesBack (g.unitEdges first) n [] ((g.unitEdges first).ends n).reverse
      (decide (n ∈ cyclicNonterminals g first)) := by
  have hdeclared : ∀ k ∈ g.nonterminals.keys, ∀ m ∈ (g.unitEdges first).ends k,
      m ∈ g.nonterminals.keys :=
    fun _ _ _ hm => unitSteps_declared hg (mem_ends_unitEdges.mp hm)
  obtain ⟨result, h⟩ : ∃ result, ComesBack (g.unitEdges first) n []
      ((g.unitEdges first).ends n).reverse result :=
    exists_comesBack hdeclared List.nodup_nil (by simp)
      fun m hm => hdeclared n hn m (List.mem_reverse.mp hm)
  have hresult : result = decide (n ∈ cyclicNonterminals g first) := by
    rw [Bool.eq_iff_iff, h.result_iff, decide_eq_true_eq, mem_cyclicNonterminals_iff hg,
      reaches_ends_unitEdges]
    simp only [List.mem_reverse, mem_ends_unitEdges, hn, true_and]
  exact hresult ▸ h

end ShiftReduce
