import ShiftReduce.Proofs.Grammar.RuleOrder
import ShiftReduce.Proofs.Table.Cells

/-! # The candidates for a cell

- `Augmented.candidates`: the actions that a state allows on a terminal, in order of
  precedence: accept, shift, and the reductions in the order of their rules.
- `claimed_claims`: these are the actions that the state claims for the cell.
- `exists_first`: only the first candidate can be something else than a reduction, so no
  shift competes with acceptance or with another shift.
-/

namespace ShiftReduce

namespace Augmented

variable {g : Grammar} {a : Augmented}

/-- The items of a state that are complete. -/
def completeItems (a : Augmented) (x : State) : List Item :=
  x.items.items.filter (·.isComplete a.grammar)

/-- The rules that a state can reduce by on a terminal, in the order of their declaration. -/
def reducible (a : Augmented) (x : State) (t : TerminalId) : List RuleId :=
  (a.grammar.rules.entries.filter fun (r, rule) =>
    r ≠ a.acceptRule ∧ (∃ y ∈ a.completeItems x, y.rule = r) ∧
      ((a.grammar.followSets a.grammar.firstSets).get rule.head).contains t = true).map
    Prod.fst

/-- Acceptance, if the state has the item `S' -> S .` and the input has come to its end; the
transition on the terminal, if there is one; the reductions. -/
def candidates (a : Augmented) (x : State) (t : TerminalId) : List Action :=
  (if t = endOfInput ∧ ⟨a.acceptRule, 1⟩ ∈ x.items.items then [.accept] else []) ++
    (x.transitions.find? (.terminal t)).toList.map .shift ++ (a.reducible x t).map .reduce

/-! ## Complete items -/

section

variable (ha : Augments g a) {s : StateId} {x : State} (hx : a.automaton.state? s = some x)

include hx

theorem exists_completeItem_iff {r : RuleId} :
    (∃ y ∈ a.completeItems x, y.rule = r) ↔ a.Finishes s r := by
  simp only [completeItems, List.mem_filter, Finishes, holds_iff hx]
  constructor
  · rintro ⟨y, ⟨hy, hcomplete⟩, hr⟩
    exact ⟨y, hy, hr, hcomplete⟩
  · rintro ⟨y, hy, hr, hcomplete⟩
    exact ⟨y, ⟨hy, hcomplete⟩, hr⟩

include ha

theorem marker_of_mem_completeItems {y : Item} (hy : y ∈ a.completeItems x) :
    y.marker.toNat = (a.grammar.body y.rule).length := by
  obtain ⟨hmem, hcomplete⟩ := List.mem_filter.mp hy
  exact Item.toNat_marker_of_complete (((holds_iff hx).mpr hmem).isOf ha) ha.outer hcomplete

/-- The complete items are in the order of their rules, and no two have the same rule. -/
theorem pairwise_completeItems : (a.completeItems x).Pairwise fun y z => y.rule < z.rule := by
  have hascending := ascending_of_mem_itemSets ha (List.mem_of_getElem? (exists_set hx).1)
  refine (hascending.filter _).imp_of_mem ?_
  intro y z hy hz hyz
  rcases Item.before_iff.mp hyz with hlt | ⟨hrule, hmarker⟩
  · exact hlt
  · rw [UInt16.lt_iff_toNat_lt, marker_of_mem_completeItems ha hx hy,
      marker_of_mem_completeItems ha hx hz, hrule] at hmarker
    exact absurd hmarker (Nat.lt_irrefl _)

end

/-! ## What is claimed for a cell -/

theorem claimed_acceptClaims (ha : Augments g a) {s : StateId} {x : State}
    (hx : a.automaton.state? s = some x) (t : TerminalId) :
    claimed t (acceptClaims a (a.completeItems x)) =
      if t = endOfInput ∧ ⟨a.acceptRule, 1⟩ ∈ x.items.items then [.accept] else [] := by
  have hitem : (a.completeItems x).any (·.rule = a.acceptRule) = true ↔
      ⟨a.acceptRule, 1⟩ ∈ x.items.items := by
    simp only [List.any_eq_true, decide_eq_true_eq]
    rw [exists_completeItem_iff hx, finishes_acceptRule_iff ha, holds_iff hx]
  unfold acceptClaims
  by_cases h : ⟨a.acceptRule, 1⟩ ∈ x.items.items
  · rw [if_pos (hitem.mpr h)]
    by_cases ht : t = endOfInput
    · simp [claimed, ht, h]
    · simp [claimed, ht, Ne.symm ht]
  · rw [if_neg (mt hitem.mp h), if_neg fun hc => h hc.2]
    rfl

theorem claimed_shiftClaims {x : State} (hx : x.transitions.keys.Nodup) (t : TerminalId) :
    claimed t (shiftClaims x) = (x.transitions.find? (.terminal t)).toList.map .shift := by
  rw [← OrderedMap.filterMap_entries hx]
  unfold shiftClaims claimed
  induction x.transitions.entries with
  | nil => rfl
  | cons e entries ih =>
      obtain ⟨X, s'⟩ := e
      cases X with
      | nonterminal n => simpa using ih
      | terminal u =>
          by_cases hu : u = t
          · simpa [hu] using ih
          · simpa [hu] using ih

/-- The reduction of one item is claimed for each terminal at most once. -/
theorem claimed_map_toList (set : TerminalSet) (action : Action) (t : TerminalId) :
    claimed t (set.toList.map fun u => ⟨u, action⟩) =
      if set.contains t = true then [action] else [] := by
  have hfilter : set.toList.filter (· = t) = if set.contains t = true then [t] else [] := by
    rw [List.filter_eq, set.nodup_toList.count]
    simp only [TerminalSet.mem_toList]
    split <;> rfl
  have hclaims : claimed t (set.toList.map fun u => ⟨u, action⟩) =
      (set.toList.filter (· = t)).map fun _ => action := by
    rw [claimed, List.filter_map, List.map_map]
    rfl
  rw [hclaims, hfilter]
  split <;> rfl

/-- Whether the reduction of a complete item is claimed for the terminal. -/
def reducesOn (a : Augmented) (follow : FollowSets) (t : TerminalId) (y : Item) : Bool :=
  y.rule ≠ a.acceptRule && (a.grammar.rule? y.rule).any fun r => (follow.get r.head).contains t

theorem claimed_reduceClaims (follow : FollowSets) (complete : List Item) (t : TerminalId) :
    claimed t (reduceClaims a follow complete) =
      ((complete.filter (a.reducesOn follow t)).map Item.rule).map .reduce := by
  induction complete with
  | nil => rfl
  | cons y complete ih =>
      by_cases hy : y.rule = a.acceptRule
      · simpa [reduceClaims, reducesOn, hy] using ih
      · have hfilter : (y :: complete).filter (·.rule ≠ a.acceptRule) =
            y :: complete.filter (·.rule ≠ a.acceptRule) := by simp [hy]
        unfold reduceClaims at ih ⊢
        rw [hfilter, List.flatMap_cons, claimed_append, ih]
        cases hrule : a.grammar.rule? y.rule with
        | none => simp [reducesOn, hrule, claimed]
        | some r =>
            rw [claimed_map_toList]
            by_cases ht : (follow.get r.head).contains t = true
            · simp [reducesOn, hrule, hy, ht]
            · simp [reducesOn, hrule, ht]

/-! ## What can clash -/

theorem pairwise_reducible (hrules : a.grammar.rules.Ascending) (x : State) (t : TerminalId) :
    (a.reducible x t).Pairwise (· < ·) :=
  hrules.sublist (List.filter_sublist.map Prod.fst)

theorem mem_reducible (ha : Augments g a) {x : State} {t : TerminalId} {r : RuleId} :
    r ∈ a.reducible x t ↔ ∃ rule, a.grammar.rule? r = some rule ∧ r ≠ a.acceptRule ∧
      (∃ y ∈ a.completeItems x, y.rule = r) ∧ a.Follows rule.head t := by
  simp only [reducible, List.mem_map, List.mem_filter, decide_eq_true_eq]
  constructor
  · rintro ⟨⟨r', rule⟩, ⟨hmem, hne, hitem, ht⟩, rfl⟩
    exact ⟨rule, OrderedMap.find?_of_mem_entries ha.outer.rule_keys hmem, hne, hitem, ht⟩
  · rintro ⟨rule, hrule, hne, hitem, ht⟩
    exact ⟨(r, rule), ⟨OrderedMap.mem_entries_of_find? hrule, hne, hitem, ht⟩, rfl⟩

section

variable (ha : Augments g a) (hrules : a.grammar.rules.Ascending) {s : StateId} {x : State}
  (hx : a.automaton.state? s = some x) (t : TerminalId)

include ha hx

/-- Nothing is shifted at the end of the input, where a state can accept. -/
theorem exists_first :
    ∃ first : Option Action, (∀ r, first ≠ some (.reduce r)) ∧
      a.candidates x t = first.toList ++ (a.reducible x t).map .reduce := by
  unfold candidates
  by_cases haccept : t = endOfInput ∧ ⟨a.acceptRule, 1⟩ ∈ x.items.items
  · refine ⟨some .accept, by simp, ?_⟩
    have hnone : x.transitions.find? (.terminal t) = none := by
      cases hfind : x.transitions.find? (.terminal t) with
      | none => rfl
      | some s' =>
          have hnext : a.automaton.next? s (.terminal t) = some s' := by
            rw [Automaton.next?, hx]
            exact hfind
          exact absurd haccept.1 ((Claims.shift hnext).shift_ne_endOfInput ha)
    rw [if_pos haccept, hnone]
    rfl
  · refine ⟨(x.transitions.find? (.terminal t)).map .shift, by simp, ?_⟩
    rw [if_neg haccept, List.nil_append]
    cases x.transitions.find? (.terminal t) <;> rfl

/-- Only the first candidate can be something else than a reduction. -/
theorem reduce_of_mem_tail {action : Action} (h : action ∈ (a.candidates x t).tail) :
    ∃ r, action = .reduce r := by
  obtain ⟨first, -, heq⟩ := exists_first ha hx t
  rw [heq] at h
  have hmem : action ∈ (a.reducible x t).map .reduce := by
    cases first with
    | none => exact List.mem_of_mem_tail h
    | some action' => exact h
  obtain ⟨r, -, rfl⟩ := List.mem_map.mp hmem
  exact ⟨r, rfl⟩

include hrules

theorem nodup_candidates : (a.candidates x t).Nodup := by
  have hrulesNodup : (a.reducible x t).Nodup := (pairwise_reducible hrules x t).imp Nat.ne_of_lt
  have hreducible : ((a.reducible x t).map Action.reduce).Nodup :=
    hrulesNodup.map fun _ _ => Action.reduce.inj
  obtain ⟨first, hfirst, heq⟩ := exists_first ha hx t
  rw [heq]
  cases first with
  | none => exact hreducible
  | some action =>
      refine List.nodup_cons.mpr ⟨?_, hreducible⟩
      rintro hmem
      obtain ⟨r, -, rfl⟩ := List.mem_map.mp hmem
      exact hfirst r rfl

/-! ## The candidates are what is claimed -/

/-- The items are in the order of the rules, which is that of their declaration. -/
theorem rules_completeItems :
    ((a.completeItems x).filter
      (a.reducesOn (a.grammar.followSets a.grammar.firstSets) t)).map Item.rule =
        a.reducible x t := by
  have hitems := List.pairwise_map.mpr ((pairwise_completeItems ha hx).filter
    (a.reducesOn (a.grammar.followSets a.grammar.firstSets) t))
  refine hitems.eq_of_mem_iff (pairwise_reducible hrules x t) fun r => ?_
  rw [mem_reducible ha]
  simp only [List.mem_map, List.mem_filter, reducesOn, Bool.and_eq_true, decide_eq_true_eq,
    Option.any_eq_true]
  constructor
  · rintro ⟨y, ⟨hy, hne, rule, hrule, ht⟩, rfl⟩
    exact ⟨rule, hrule, hne, ⟨y, hy, rfl⟩, ht⟩
  · rintro ⟨rule, hrule, hne, ⟨y, hy, rfl⟩, ht⟩
    exact ⟨y, ⟨hy, hne, rule, hrule, ht⟩, rfl⟩

theorem claimed_claims :
    claimed t (claims a (a.grammar.followSets a.grammar.firstSets) x) = a.candidates x t := by
  have hkeys : x.transitions.keys.Nodup := by
    rw [(exists_set hx).2, keys_transitions]
    exact nodup_nextSymbols _ _
  show claimed t (acceptClaims a (a.completeItems x) ++ shiftClaims x ++
    reduceClaims a _ (a.completeItems x)) = _
  rw [claimed_append, claimed_append, claimed_acceptClaims ha hx, claimed_shiftClaims hkeys,
    claimed_reduceClaims, rules_completeItems ha hrules hx, candidates]

theorem mem_candidates {action : Action} :
    action ∈ a.candidates x t ↔ a.Claims s t action := by
  rw [← claimed_claims ha hrules hx, mem_claimed, mem_claims hx]

end

end Augmented

end ShiftReduce
