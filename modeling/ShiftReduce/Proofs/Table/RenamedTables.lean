import ShiftReduce.Proofs.Automaton.RenamedStates
import ShiftReduce.Proofs.Table.Exactness

/-! # The table of a grammar with other numbers

- `Renames.mem_cyclicNames_iff`: the nonterminals that derive themselves have the same names.
- `Renaming.actions`: actions under other numbers.
- `RenamesStates.claims_iff`: what a state claims.
- `RenamesStates.length_conflicts`: there are as many conflicts.
- `RenamesStates.action?_eq`: without conflicts the cells hold the same actions.
-/

namespace ShiftReduce

variable {g h : Grammar} {a b : Augmented} {ρ : Renaming} {σ : Equiv.Perm StateId}

/-! ## Cyclic nonterminals -/

theorem Augmented.mem_cyclicNames_iff (ha : a.grammar.WellFormed) {name : String} :
    name ∈ a.cyclicNames ↔ ∃ n, a.grammar.DerivesProperly [.nonterminal n] [.nonterminal n] ∧
      a.grammar.nonterminalName n = name := by
  simp only [cyclicNames, List.mem_map, mem_cyclicNonterminals_firstSets_iff ha]

theorem Renames.mem_cyclicNames (hr : Renames ρ a.grammar b.grammar) {name : String}
    (hname : name ∈ a.cyclicNames) : name ∈ b.cyclicNames := by
  obtain ⟨n, hn, rfl⟩ := (Augmented.mem_cyclicNames_iff hr.source).mp hname
  refine (Augmented.mem_cyclicNames_iff hr.target).mpr ⟨ρ.nonterminals n, ?_, ?_⟩
  · exact hr.derivesProperly hn
  · exact hr.nonterminalName_eq n

theorem Renames.mem_cyclicNames_iff (hr : Renames ρ a.grammar b.grammar) (name : String) :
    name ∈ a.cyclicNames ↔ name ∈ b.cyclicNames :=
  ⟨hr.mem_cyclicNames, hr.symm.mem_cyclicNames⟩

theorem Renames.cyclicNames_eq_nil_iff (hr : Renames ρ a.grammar b.grammar) :
    a.cyclicNames = [] ↔ b.cyclicNames = [] := by
  simp only [List.eq_nil_iff_forall_not_mem, hr.mem_cyclicNames_iff]

/-! ## Actions -/

def Action.map (f : StateId → StateId) (k : RuleId → RuleId) : Action → Action
  | .shift s => .shift (f s)
  | .reduce r => .reduce (k r)
  | .accept => .accept

def Renaming.actions (ρ : Renaming) (σ : Equiv.Perm StateId) : Equiv.Perm Action where
  toFun := Action.map σ ρ.rules
  invFun := Action.map σ.symm ρ.rules.symm
  left_inv := by
    intro action
    cases action <;> simp [Action.map]
  right_inv := by
    intro action
    cases action <;> simp [Action.map]

theorem Renaming.symm_actions (ρ : Renaming) (σ : Equiv.Perm StateId) :
    ρ.symm.actions σ.symm = (ρ.actions σ).symm := rfl

namespace RenamesStates

open Augmented

/-! ## What a state claims -/

theorem follows (hr : RenamesStates ρ σ g h a b) {n : NonterminalId} {t : TerminalId}
    (ht : a.Follows n t) : b.Follows (ρ.nonterminals n) (ρ.terminals t) := by
  have hp := (contains_followSets_iff hr.source).mp ht
  exact (contains_followSets_iff hr.target).mpr (hr.precedes hp)

theorem claims (hr : RenamesStates ρ σ g h a b) {s : StateId} {t : TerminalId} {action : Action}
    (hc : a.Claims s t action) : b.Claims (σ s) (ρ.terminals t) (ρ.actions σ action) := by
  have haccept := hr.acceptRule_eq hr.first hr.second
  cases hc with
  | @accept x holds complete rule =>
      rw [hr.endOfInput_eq]
      refine .accept (hr.holds holds) ?_ ?_
      · rwa [hr.isComplete_item]
      · rw [← haccept, ← rule]
        rfl
  | shift next => exact .shift (hr.next? next)
  | @reduce x rule t holds complete inner found follows =>
      obtain ⟨rule', found', hhead, -⟩ := hr.exists_rule? found
      refine .reduce (hr.holds holds) ?_ ?_ found' ?_
      · rwa [hr.isComplete_item]
      · rw [← haccept]
        exact ρ.rules.injective.ne inner
      · rw [hhead]
        exact hr.follows follows

theorem claims_iff (hr : RenamesStates ρ σ g h a b) {s : StateId} {t : TerminalId}
    {action : Action} :
    b.Claims (σ s) (ρ.terminals t) (ρ.actions σ action) ↔ a.Claims s t action := by
  constructor
  · intro hc
    have hback := hr.symm.claims hc
    rwa [ρ.symm_actions, Equiv.symm_apply_apply, Equiv.symm_apply_apply, Renaming.symm,
      Equiv.symm_apply_apply] at hback
  · exact hr.claims

theorem state?_eq_none_iff (hr : RenamesStates ρ σ g h a b) {s : StateId} :
    b.automaton.state? (σ s) = none ↔ a.automaton.state? s = none := by
  rw [state?_eq, state?_eq, hr.states, Option.map_eq_none_iff, Option.map_eq_none_iff,
    Option.map_eq_none_iff]

end RenamesStates

/-! ## Conflicts -/

namespace Augmented

/-- The cells with conflicts, each as often as it has one. -/
def contestedCells (a : Augmented) : List (StateId × TerminalId) :=
  a.table.conflicts.map fun c => (c.state, c.lookahead)

theorem count_contestedCells (a : Augmented) (s : StateId) (t : TerminalId) :
    a.contestedCells.count (s, t) =
      (a.table.conflicts.filter fun c => c.state = s ∧ c.lookahead = t).length := by
  rw [contestedCells, List.count, List.countP_map, List.countP_eq_length_filter]
  congr 1
  apply List.filter_congr
  intro c _
  rw [Bool.eq_iff_iff]
  simp

/-- All candidates for a cell but one are refused. -/
theorem count_contestedCells_of_state (ha : Augments g a)
    (hrules : a.grammar.rules.Ascending) {s : StateId} {x : State}
    (hx : a.automaton.state? s = some x) (t : TerminalId) :
    a.contestedCells.count (s, t) = (a.candidates x t).length - 1 := by
  rw [count_contestedCells, (isExact_table ha hrules).conflicts s x hx]
  cases hcandidates : a.candidates x t with
  | nil => rfl
  | cons kept later => simp

theorem count_contestedCells_of_none (ha : Augments g a) (hrules : a.grammar.rules.Ascending)
    {s : StateId} (hx : a.automaton.state? s = none) (t : TerminalId) :
    a.contestedCells.count (s, t) = 0 := by
  rw [count_contestedCells, List.length_eq_zero_iff, List.filter_eq_nil_iff]
  intro c hc hcell
  have hstate := (isExact_table ha hrules).states c hc
  rw [(of_decide_eq_true hcell).1, hx] at hstate
  cases hstate

end Augmented

namespace RenamesStates

open Augmented

section

variable (hr : RenamesStates ρ σ g h a b) (hrules : a.grammar.rules.Ascending)
  (hrules' : b.grammar.rules.Ascending)

include hr hrules hrules'

/-- A cell has the same candidates, maybe in another order. -/
theorem perm_candidates {s : StateId} {x y : State} (hx : a.automaton.state? s = some x)
    (hy : b.automaton.state? (σ s) = some y) (t : TerminalId) :
    ((a.candidates x t).map (ρ.actions σ)).Perm (b.candidates y (ρ.terminals t)) := by
  have hnodup := (nodup_candidates hr.first hrules hx t).map (ρ.actions σ).injective
  have hnodup' := nodup_candidates hr.second hrules' hy (ρ.terminals t)
  rw [List.perm_ext_iff_of_nodup hnodup hnodup']
  intro action
  rw [mem_candidates hr.second hrules' hy, List.mem_map]
  constructor
  · rintro ⟨action, hmem, rfl⟩
    exact hr.claims ((mem_candidates hr.first hrules hx t).mp hmem)
  · intro hc
    refine ⟨_, ?_, (ρ.actions σ).apply_symm_apply action⟩
    rwa [mem_candidates hr.first hrules hx, ← hr.claims_iff, Equiv.apply_symm_apply]

theorem count_contestedCells (s : StateId) (t : TerminalId) :
    b.contestedCells.count (σ s, ρ.terminals t) = a.contestedCells.count (s, t) := by
  cases hx : a.automaton.state? s with
  | none =>
      rw [count_contestedCells_of_none hr.first hrules hx,
        count_contestedCells_of_none hr.second hrules' (hr.state?_eq_none_iff.mpr hx)]
  | some x =>
      obtain ⟨y, hy⟩ : ∃ y, b.automaton.state? (σ s) = some y := by
        rw [← Option.ne_none_iff_exists', ne_eq, hr.state?_eq_none_iff, hx]
        exact Option.some_ne_none x
      have hlength := (hr.perm_candidates hrules hrules' hx hy t).length_eq
      rw [List.length_map] at hlength
      rw [count_contestedCells_of_state hr.first hrules hx,
        count_contestedCells_of_state hr.second hrules' hy, hlength]

/-- There are as many conflicts, since each cell has as many. -/
theorem length_conflicts : a.table.conflicts.length = b.table.conflicts.length := by
  have hcells : (a.contestedCells.map (Prod.map σ ρ.terminals)).Perm b.contestedCells := by
    rw [List.perm_iff_count]
    rintro ⟨s', t'⟩
    obtain ⟨s, rfl⟩ := σ.surjective s'
    obtain ⟨t, rfl⟩ := ρ.terminals.surjective t'
    rw [hr.count_contestedCells hrules hrules']
    exact List.count_map_of_injective _ _ (σ.injective.prodMap ρ.terminals.injective) (s, t)
  have hlength := hcells.length_eq
  rwa [List.length_map, contestedCells, contestedCells, List.length_map, List.length_map]
    at hlength

theorem conflicts_eq_nil_iff : a.table.conflicts = [] ↔ b.table.conflicts = [] := by
  rw [← List.length_eq_zero_iff, hr.length_conflicts hrules hrules', List.length_eq_zero_iff]

end

/-! ## Cells -/

theorem action?_eq (hr : RenamesStates ρ σ g h a b) (hnone : a.table.conflicts = [])
    (hnone' : b.table.conflicts = []) (s : StateId) (t : TerminalId) :
    b.table.action? (σ s) (ρ.terminals t) = (a.table.action? s t).map (ρ.actions σ) := by
  apply eq_map_of_iff
  intro action
  rw [action?_eq_some_iff hnone', hr.claims_iff, action?_eq_some_iff hnone]

theorem goto?_eq (hr : RenamesStates ρ σ g h a b) (s : StateId) (n : NonterminalId) :
    b.table.goto? (σ s) (ρ.nonterminals n) = (a.table.goto? s n).map σ := by
  rw [Augmented.goto?_eq, Augmented.goto?_eq]
  exact hr.next?_eq s (.nonterminal n)

end RenamesStates

end ShiftReduce
