import ShiftReduce.Engine.Unguarded
import ShiftReduce.Proofs.Engine.Steps

/-! # What the guard of an engine refuses

The guard stops the engine where it would go on forever, and nowhere else.

- `Configuration.Stalls`: the reduction that comes next leads back to the topmost state.
- `step_cases`: the guard refuses the step there, and otherwise makes no difference.
- `Stalls.exists_next`, `Stalls.runUnguarded`: the reduction can be made again and again, since a
  configuration that stalls is told by its states and its lookahead.
- `guard_keeps_results`: so no result is lost.
-/

namespace ShiftReduce

variable {σ ν τ : Type} [Token τ] {t : ParseTable σ ν}

namespace Configuration

/-! ## One step -/

/-- A reduction of one tree is due, and it leads back to the topmost state. There is a tree and a
state below; nothing else is asked of the trees. -/
inductive Stalls (t : ParseTable σ ν) : Configuration σ τ → Prop where
  | intro {s top : σ} {under : List σ} {node : Tree τ} {nodes : List (Tree τ)} {input : List τ}
      {n : ν} (action : t.action s (input.head?.map Token.name) = .reduce n 1)
      (goto : t.goto top n = some s) :
      Stalls t ⟨s :: top :: under, node :: nodes, input⟩

/-- The states and the input are as before, and the tree on top is deeper. -/
theorem Stalls.exists_next {c : Configuration σ τ} (h : c.Stalls t) :
    ∃ c', c.stepUnguarded t = .next c' ∧ c'.Stalls t := by
  obtain @⟨s, top, under, node, nodes, input, n, action, goto⟩ := h
  have huncover : uncover ⟨s :: top :: under, node :: nodes, input⟩ 1 =
      some ([node], nodes, top, under) := rfl
  refine ⟨⟨s :: top :: under, .node (t.symbolName n) [node] :: nodes, input⟩, ?_,
    .intro action goto⟩
  simp only [stepUnguarded, lookahead, action, reduceUnguarded, huncover, goto]

theorem Stalls.runUnguarded {c : Configuration σ τ} (h : c.Stalls t) (m : Nat) :
    ∃ c', c.runUnguarded t m = .running c' := by
  induction m generalizing c with
  | zero => exact ⟨c, rfl⟩
  | succ m ih =>
      obtain ⟨c', hstep, hc'⟩ := h.exists_next
      rw [Configuration.runUnguarded, hstep]
      exact ih hc'

variable [BEq σ] [LawfulBEq σ]

/-- Where the guard refuses a step, the engine stalls; anywhere else both engines do the same. -/
theorem step_cases (t : ParseTable σ ν) (c : Configuration σ τ) :
    c.Stalls t ∨ c.stepUnguarded t = c.step t ∧
      ∀ s name, c.step t ≠ .halt (.error (.cyclicReduce s name)) := by
  have h := outcome_step (t := t) c
  generalize c.step t = out at h
  cases h with
  | bare nodes input => exact .inr ⟨rfl, by simp⟩
  | shift below nodes rest action =>
      refine .inr ⟨?_, by simp⟩
      simp only [stepUnguarded, lookahead, List.head?_cons, Option.map_some, action]
      rfl
  | shiftEnd below nodes action =>
      refine .inr ⟨?_, by simp⟩
      simp only [stepUnguarded, lookahead, List.head?_nil, Option.map_none, action]
      rfl
  | @short s below nodes input n k action room =>
      refine .inr ⟨?_, by simp⟩
      have hnone : uncover ⟨s :: below, nodes, input⟩ k = none :=
        uncover_eq_none_iff.mpr (room.imp_right Nat.succ_le_of_lt)
      simp only [stepUnguarded, lookahead, action, reduceUnguarded, hnone]
  | @missing s top below under nodes input n k action enough uncovered goto =>
      refine .inr ⟨?_, by simp⟩
      have hsome : uncover ⟨s :: below, nodes, input⟩ k = some _ :=
        uncover_eq_some_iff.mpr ⟨enough, rfl, rfl, uncovered⟩
      simp only [stepUnguarded, lookahead, action, reduceUnguarded, hsome, goto]
  | @cyclic s s' top below under nodes input n action enough uncovered goto back =>
      obtain rfl : s' = s := eq_of_beq back
      obtain ⟨node, nodes, rfl⟩ := List.exists_cons_of_length_pos enough
      obtain rfl : below = top :: under := uncovered
      exact .inl (.intro action goto)
  | @reduce s s' top below under nodes input n k action enough uncovered goto guard =>
      refine .inr ⟨?_, by simp⟩
      have hsome : uncover ⟨s :: below, nodes, input⟩ k = some _ :=
        uncover_eq_some_iff.mpr ⟨enough, rfl, rfl, uncovered⟩
      simp only [stepUnguarded, lookahead, action, reduceUnguarded, hsome, goto]
  | accept below root action =>
      refine .inr ⟨?_, by simp⟩
      simp only [stepUnguarded, lookahead, action, Configuration.accept]
  | several below action other =>
      refine .inr ⟨?_, by simp⟩
      simp only [stepUnguarded, lookahead, action, Configuration.accept]
      split
      · exact absurd rfl other
      · rfl
  | reject below nodes action =>
      refine .inr ⟨?_, ?_⟩
      · simp only [stepUnguarded, lookahead, action]
      · intro s name heq
        unfold rejection at heq
        split at heq <;> cases heq

/-! ## Runs -/

theorem runUnguarded_of_cyclicReduce {c : Configuration σ τ} {n : Nat} {s : σ} {name : String}
    (h : c.run t n = .halted (.error (.cyclicReduce s name))) (m : Nat) :
    ∃ c', c.runUnguarded t m = .running c' := by
  induction n generalizing c m with
  | zero => cases h
  | succ n ih =>
      rcases step_cases t c with hstalls | ⟨hsame, hguard⟩
      · exact hstalls.runUnguarded m
      · rw [run] at h
        cases m with
        | zero => exact ⟨c, rfl⟩
        | succ m =>
            rw [Configuration.runUnguarded, hsame]
            cases hstep : c.step t with
            | halt r =>
                rw [hstep] at h
                cases h
                exact absurd hstep (hguard s name)
            | next c' =>
                rw [hstep] at h
                exact ih h m

theorem run_of_runUnguarded {c : Configuration σ τ} {m : Nat} {r : ParseResult σ τ}
    (h : c.runUnguarded t m = .halted r) : c.run t m = .halted r := by
  induction m generalizing c with
  | zero => cases h
  | succ m ih =>
      rcases step_cases t c with hstalls | ⟨hsame, -⟩
      · obtain ⟨c', hc'⟩ := hstalls.runUnguarded (m + 1)
        rw [hc'] at h
        cases h
      · rw [Configuration.runUnguarded, hsame] at h
        rw [run]
        cases hstep : c.step t with
        | halt r' =>
            rw [hstep] at h
            exact h
        | next c' =>
            rw [hstep] at h
            exact ih h

end Configuration

/-! ## Results -/

theorem ParseTable.parseUnguarded?_eq_some_iff {m : Nat} {w : List τ} {r : ParseResult σ τ} :
    t.parseUnguarded? m w = some r ↔
      (Configuration.initial t w).runUnguarded t m = .halted r := by
  unfold parseUnguarded?
  split
  · next r' h => simp [h]
  · next c h => simp [h]

variable [BEq σ] [LawfulBEq σ]

/-- For every table: where the guard refuses a reduction, the engine without the guard never halts,
and where that engine halts, the engine with the guard has the same result after as many steps. -/
theorem guard_keeps_results (t : ParseTable σ ν) (w : List τ) :
    (∀ n s name, t.parse? n w = some (.error (.cyclicReduce s name)) →
      ∀ m, t.parseUnguarded? m w = none) ∧
    ∀ m r, t.parseUnguarded? m w = some r → t.parse? m w = some r := by
  constructor
  · intro n s name h m
    obtain ⟨c, hc⟩ := Configuration.runUnguarded_of_cyclicReduce
      (ParseTable.parse?_eq_some_iff.mp h) m
    rw [ParseTable.parseUnguarded?, hc]
  · intro m r h
    exact ParseTable.parse?_eq_some_iff.mpr
      (Configuration.run_of_runUnguarded (ParseTable.parseUnguarded?_eq_some_iff.mp h))

/-- After an `x` the reduction to `A` is due, and then again and again: `A -> x` and `A -> A`. -/
def unitLoop : ParseTable Nat Unit where
  initialState := 0
  action
    | 0, some "x" => .shift 2
    | 1, none => .reduce () 1
    | 2, none => .reduce () 1
    | _, _ => .error
  goto
    | 0, () => some 1
    | _, () => none
  symbolName := fun _ => "A"

theorem guard_keeps_results_unitLoop :
    (unitLoop.parse? 3 ["x"] = some (.error (.cyclicReduce 1 "A")) ∧
      ∀ m, unitLoop.parseUnguarded? m ["x"] = none) ∧
    unitLoop.parseUnguarded? 2 ["x", "x"] = some (.error (.unexpectedToken [0, 2] "x")) ∧
      unitLoop.parse? 2 ["x", "x"] = some (.error (.unexpectedToken [0, 2] "x")) :=
  ⟨⟨rfl, (guard_keeps_results unitLoop ["x"]).1 3 1 "A" rfl⟩,
    rfl, (guard_keeps_results unitLoop ["x", "x"]).2 2 _ rfl⟩

end ShiftReduce
