import ShiftReduce.Engine.Run

/-! # Runs, step by step

- `uncover_eq_some_iff`: what a reduction takes from the stacks.
- `Configuration.Outcome`, `step_eq_iff`: everything that a step can do, told by the
  entries of the table.
- `run_add`, `run_snoc`: a run continues where a shorter one has stopped.
- `run_halted_add`, `parse?_unique`: more steps do not change a result.
- `exists_running_of_le`, `step_of_run`, `exists_last_of_run`: the configurations on the way of a
  run.
- `run_induction`: what each step keeps holds when the engine halts.
-/

namespace ShiftReduce

variable {σ ν τ : Type}

/-! ## Stacks -/

theorem popOnto_eq {α : Type} : ∀ (n : Nat) (popped rest : List α), n ≤ rest.length →
    popOnto n popped rest = some ((rest.take n).reverse ++ popped, rest.drop n)
  | 0, _, _, _ => rfl
  | n + 1, _, [], h => absurd h (Nat.not_succ_le_zero n)
  | n + 1, popped, x :: rest, h => by
      rw [popOnto, popOnto_eq n _ _ (Nat.le_of_succ_le_succ h)]
      simp

theorem popOnto_isSome {α : Type} : ∀ (n : Nat) (popped rest : List α),
    (popOnto n popped rest).isSome → n ≤ rest.length
  | 0, _, _, _ => Nat.zero_le _
  | n + 1, _, [], h => by simp [popOnto] at h
  | n + 1, popped, x :: rest, h => Nat.succ_le_succ (popOnto_isSome n (x :: popped) rest h)

theorem Configuration.uncover_eq_some_iff {c : Configuration σ τ} {n : Nat}
    {children nodes : List (Tree τ)} {top : σ} {under : List σ} :
    c.uncover n = some (children, nodes, top, under) ↔ n ≤ c.nodes.length ∧
      children = (c.nodes.take n).reverse ∧ nodes = c.nodes.drop n ∧
      c.states.drop n = top :: under := by
  unfold uncover
  by_cases hn : n ≤ c.nodes.length
  · rw [popOnto_eq n [] c.nodes hn, List.append_nil]
    cases hd : c.states.drop n with
    | nil => simp
    | cons s ss =>
        simp only [Option.some.injEq, Prod.mk.injEq, List.cons.injEq]
        constructor
        · rintro ⟨rfl, rfl, rfl, rfl⟩
          exact ⟨hn, rfl, rfl, rfl, rfl⟩
        · rintro ⟨-, rfl, rfl, rfl, rfl⟩
          exact ⟨rfl, rfl, rfl, rfl⟩
  · have hnone : popOnto n [] c.nodes = none := by
      cases hp : popOnto n [] c.nodes with
      | none => rfl
      | some p => exact absurd (popOnto_isSome n [] c.nodes (by rw [hp]; rfl)) hn
    rw [hnone]
    simp [hn]

theorem Configuration.uncover_eq_none_iff {c : Configuration σ τ} {n : Nat} :
    c.uncover n = none ↔ c.nodes.length < n ∨ c.states.length ≤ n := by
  constructor
  · intro h
    rcases Nat.lt_or_ge c.nodes.length n with hn | hn
    · exact .inl hn
    · cases hdrop : c.states.drop n with
      | nil => exact .inr (List.drop_eq_nil_iff.mp hdrop)
      | cons top under =>
          rw [uncover_eq_some_iff.mpr ⟨hn, rfl, rfl, hdrop⟩] at h
          cases h
  · intro h
    cases hc : c.uncover n with
    | none => rfl
    | some u =>
        obtain ⟨children, nodes, top, under⟩ := u
        obtain ⟨hle, -, -, hdrop⟩ := uncover_eq_some_iff.mp hc
        have hlen := congrArg List.length hdrop
        rw [List.length_drop, List.length_cons] at hlen
        omega

/-! ## Runs that have not halted -/

/-- The run goes on from a configuration that passes the test. -/
def Run.isAt (p : Configuration σ τ → Bool) : Run σ τ → Bool
  | .halted _ => false
  | .running c => p c

theorem Run.exists_of_isAt {p : Configuration σ τ → Bool} {run : Run σ τ}
    (h : run.isAt p = true) : ∃ c, run = .running c ∧ p c = true := by
  cases run with
  | halted r => cases h
  | running c => exact ⟨c, rfl, h⟩

variable [BEq σ] [Token τ] {t : ParseTable σ ν}

namespace Configuration

/-! ## Steps -/

/-- What a step does, told by the entry of the topmost state under the lookahead. -/
inductive Outcome (t : ParseTable σ ν) : Configuration σ τ → Step σ τ → Prop where
  | bare (nodes : List (Tree τ)) (input : List τ) :
      Outcome t ⟨[], nodes, input⟩ (.halt (.error .inconsistentStack))
  | shift {s s' : σ} (below : List σ) (nodes : List (Tree τ)) {x : τ} (rest : List τ)
      (action : t.action s (some (Token.name x)) = .shift s') :
      Outcome t ⟨s :: below, nodes, x :: rest⟩
        (.next ⟨s' :: s :: below, .leaf x :: nodes, rest⟩)
  | shiftEnd {s s' : σ} (below : List σ) (nodes : List (Tree τ))
      (action : t.action s none = .shift s') :
      Outcome t ⟨s :: below, nodes, []⟩ (.halt (.error .inconsistentStack))
  | short {s : σ} {below : List σ} {nodes : List (Tree τ)} {input : List τ} {n : ν} {k : Nat}
      (action : t.action s (input.head?.map Token.name) = .reduce n k)
      (room : nodes.length < k ∨ below.length < k) :
      Outcome t ⟨s :: below, nodes, input⟩ (.halt (.error .inconsistentStack))
  | missing {s top : σ} {below under : List σ} {nodes : List (Tree τ)} {input : List τ} {n : ν}
      {k : Nat} (action : t.action s (input.head?.map Token.name) = .reduce n k)
      (enough : k ≤ nodes.length) (uncovered : (s :: below).drop k = top :: under)
      (goto : t.goto top n = none) :
      Outcome t ⟨s :: below, nodes, input⟩ (.halt (.error (.missingGoto top (t.symbolName n))))
  | cyclic {s s' top : σ} {below under : List σ} {nodes : List (Tree τ)} {input : List τ} {n : ν}
      (action : t.action s (input.head?.map Token.name) = .reduce n 1)
      (enough : 1 ≤ nodes.length) (uncovered : (s :: below).drop 1 = top :: under)
      (goto : t.goto top n = some s') (back : (s' == s) = true) :
      Outcome t ⟨s :: below, nodes, input⟩ (.halt (.error (.cyclicReduce s' (t.symbolName n))))
  | reduce {s s' top : σ} {below under : List σ} {nodes : List (Tree τ)} {input : List τ} {n : ν}
      {k : Nat} (action : t.action s (input.head?.map Token.name) = .reduce n k)
      (enough : k ≤ nodes.length) (uncovered : (s :: below).drop k = top :: under)
      (goto : t.goto top n = some s') (guard : ¬ (k = 1 ∧ (s' == s) = true)) :
      Outcome t ⟨s :: below, nodes, input⟩ (.next ⟨s' :: top :: under,
        .node (t.symbolName n) (nodes.take k).reverse :: nodes.drop k, input⟩)
  | accept {s : σ} (below : List σ) (root : Tree τ) {input : List τ}
      (action : t.action s (input.head?.map Token.name) = .accept) :
      Outcome t ⟨s :: below, [root], input⟩ (.halt (.ok root))
  | several {s : σ} (below : List σ) {nodes : List (Tree τ)} {input : List τ}
      (action : t.action s (input.head?.map Token.name) = .accept) (other : nodes.length ≠ 1) :
      Outcome t ⟨s :: below, nodes, input⟩ (.halt (.error .inconsistentStack))
  | reject {s : σ} (below : List σ) (nodes : List (Tree τ)) {input : List τ}
      (action : t.action s (input.head?.map Token.name) = .error) :
      Outcome t ⟨s :: below, nodes, input⟩
        (.halt (.error (rejection ⟨s :: below, nodes, input⟩)))

theorem outcome_reduce {s : σ} {below : List σ} {nodes : List (Tree τ)} {input : List τ} {n : ν}
    {k : Nat} (action : t.action s (input.head?.map Token.name) = .reduce n k) :
    Outcome t ⟨s :: below, nodes, input⟩
      ((⟨s :: below, nodes, input⟩ : Configuration σ τ).reduce t s n k) := by
  unfold Configuration.reduce
  split
  · next hnone =>
      rw [uncover_eq_none_iff, List.length_cons, Nat.succ_le_iff] at hnone
      exact .short action hnone
  · next children rest top under huncover =>
      obtain ⟨hle, rfl, rfl, hdrop⟩ := uncover_eq_some_iff.mp huncover
      simp only
      split
      · next hgoto => exact .missing action hle hdrop hgoto
      · next s' hgoto =>
          split
          · next hguard =>
              obtain ⟨rfl, hback⟩ := hguard
              exact .cyclic action hle hdrop hgoto hback
          · next hguard => exact .reduce action hle hdrop hgoto hguard

theorem outcome_step (c : Configuration σ τ) : Outcome t c (c.step t) := by
  obtain ⟨states, nodes, input⟩ := c
  unfold Configuration.step
  rcases states with - | ⟨s, below⟩
  · exact .bare nodes input
  · simp only
    split
    · next s' haction =>
        unfold Configuration.shift
        rcases input with - | ⟨x, rest⟩
        · exact .shiftEnd below nodes haction
        · exact .shift below nodes rest haction
    · next n k haction => exact outcome_reduce haction
    · next haction =>
        unfold Configuration.accept
        split
        · next root hnodes =>
            cases hnodes
            exact .accept below root haction
        · next hnodes =>
            refine .several below haction ?_
            intro hone
            obtain ⟨root, hroot⟩ := List.length_eq_one_iff.mp hone
            exact hnodes root hroot
    · next haction => exact .reject below nodes haction

theorem Outcome.step_eq {c : Configuration σ τ} {out : Step σ τ} (h : Outcome t c out) :
    c.step t = out := by
  cases h with
  | bare nodes input => rfl
  | shift below nodes rest action =>
      simp only [Configuration.step, lookahead, List.head?_cons, Option.map_some, action]
      rfl
  | shiftEnd below nodes action =>
      simp only [Configuration.step, lookahead, List.head?_nil, Option.map_none, action]
      rfl
  | @short s below nodes input n k action room =>
      have hnone : uncover ⟨s :: below, nodes, input⟩ k = none :=
        uncover_eq_none_iff.mpr (room.imp_right Nat.succ_le_of_lt)
      simp only [Configuration.step, lookahead, action, Configuration.reduce, hnone]
  | @missing s top below under nodes input n k action enough uncovered goto =>
      have hsome : uncover ⟨s :: below, nodes, input⟩ k = some _ :=
        uncover_eq_some_iff.mpr ⟨enough, rfl, rfl, uncovered⟩
      simp only [Configuration.step, lookahead, action, Configuration.reduce, hsome, goto]
  | @cyclic s s' top below under nodes input n action enough uncovered goto back =>
      have hsome : uncover ⟨s :: below, nodes, input⟩ 1 = some _ :=
        uncover_eq_some_iff.mpr ⟨enough, rfl, rfl, uncovered⟩
      simp only [Configuration.step, lookahead, action, Configuration.reduce, hsome, goto, back,
        and_self, if_true]
  | @reduce s s' top below under nodes input n k action enough uncovered goto guard =>
      have hsome : uncover ⟨s :: below, nodes, input⟩ k = some _ :=
        uncover_eq_some_iff.mpr ⟨enough, rfl, rfl, uncovered⟩
      simp only [Configuration.step, lookahead, action, Configuration.reduce, hsome, goto,
        if_neg guard]
  | accept below root action =>
      simp only [Configuration.step, lookahead, action, Configuration.accept]
  | @several s below nodes input action other =>
      simp only [Configuration.step, lookahead, action, Configuration.accept]
      split
      · exact absurd rfl other
      · rfl
  | reject below nodes action => simp only [Configuration.step, lookahead, action]

/-- The outcome of a step is the only one. -/
theorem step_eq_iff {c : Configuration σ τ} {out : Step σ τ} :
    c.step t = out ↔ Outcome t c out :=
  ⟨fun h => h ▸ outcome_step c, Outcome.step_eq⟩

/-! ## Runs -/

theorem run_succ_of_next {c c' : Configuration σ τ} (h : c.step t = .next c') (n : Nat) :
    c.run t (n + 1) = c'.run t n := by
  rw [run, h]

theorem run_succ_of_halt {c : Configuration σ τ} {r : ParseResult σ τ}
    (h : c.step t = .halt r) (n : Nat) : c.run t (n + 1) = .halted r := by
  rw [run, h]

/-- A run that goes on after its first step has made this step. -/
theorem exists_next_of_run {c d : Configuration σ τ} {n : Nat}
    (h : c.run t (n + 1) = .running d) :
    ∃ c', c.step t = .next c' ∧ c'.run t n = .running d := by
  rw [run] at h
  cases hs : c.step t with
  | halt r =>
      rw [hs] at h
      cases h
  | next c' =>
      rw [hs] at h
      exact ⟨c', rfl, h⟩

theorem run_add {c c' : Configuration σ τ} {m : Nat} (h : c.run t m = .running c') (n : Nat) :
    c.run t (m + n) = c'.run t n := by
  induction m generalizing c with
  | zero =>
      cases h
      rw [Nat.zero_add]
  | succ m ih =>
      obtain ⟨c1, hs, h1⟩ := exists_next_of_run h
      rw [Nat.succ_add, run_succ_of_next hs, ih h1]

/-- A run goes on by the step of its last configuration. -/
theorem run_snoc {c c1 d : Configuration σ τ} {n : Nat} (h : c.run t n = .running c1)
    (hstep : c1.step t = .next d) : c.run t (n + 1) = .running d := by
  rw [run_add h, run_succ_of_next hstep]
  rfl

theorem run_halted_add {c : Configuration σ τ} {r : ParseResult σ τ} {m : Nat}
    (h : c.run t m = .halted r) (n : Nat) : c.run t (m + n) = .halted r := by
  induction m generalizing c with
  | zero => cases h
  | succ m ih =>
      rw [Nat.succ_add, run]
      rw [run] at h
      cases hs : c.step t with
      | halt r' =>
          rw [hs] at h
          exact h
      | next c1 =>
          rw [hs] at h
          exact ih h

/-- A run that is still going on has not halted before. -/
theorem exists_running_of_le {c d : Configuration σ τ} {m n : Nat} (h : c.run t n = .running d)
    (hmn : m ≤ n) : ∃ c', c.run t m = .running c' := by
  cases hm : c.run t m with
  | running c' => exact ⟨c', rfl⟩
  | halted r =>
      have hn := run_halted_add hm (n - m)
      rw [Nat.add_sub_cancel' hmn, h] at hn
      cases hn

/-- Between the configurations of a run are the steps. -/
theorem step_of_run {c c1 c2 : Configuration σ τ} {n : Nat} (h1 : c.run t n = .running c1)
    (h2 : c.run t (n + 1) = .running c2) : c1.step t = .next c2 := by
  rw [run_add h1] at h2
  obtain ⟨c', hstep, h'⟩ := exists_next_of_run h2
  cases h'
  exact hstep

/-- A run that has halted came to a last configuration. -/
theorem exists_last_of_run {c : Configuration σ τ} {r : ParseResult σ τ} {n : Nat}
    (hrun : c.run t n = .halted r) :
    ∃ m d, m < n ∧ c.run t m = .running d ∧ d.step t = .halt r := by
  induction n generalizing c with
  | zero => cases hrun
  | succ n ih =>
      rw [run] at hrun
      cases hstep : c.step t with
      | halt r' =>
          rw [hstep] at hrun
          cases hrun
          exact ⟨0, c, Nat.succ_pos n, rfl, hstep⟩
      | next c1 =>
          rw [hstep] at hrun
          obtain ⟨m, d, hm, hd, hhalt⟩ := ih hrun
          exact ⟨m + 1, d, Nat.succ_lt_succ hm, by rw [run_succ_of_next hstep, hd], hhalt⟩

/-- What holds at first and is kept by each step holds where the engine stops. -/
theorem run_induction {P : Configuration σ τ → Prop} {c : Configuration σ τ} (hc : P c)
    (hstep : ∀ c c', P c → c.step t = .next c' → P c') {n : Nat} :
    (∀ c', c.run t n = .running c' → P c') ∧
      ∀ r, c.run t n = .halted r → ∃ c', P c' ∧ c'.step t = .halt r := by
  induction n generalizing c with
  | zero =>
      constructor
      · rintro c' h
        cases h
        exact hc
      · rintro r h
        cases h
  | succ n ih =>
      rw [run]
      cases hs : c.step t with
      | halt r' =>
          constructor
          · rintro c' h
            cases h
          · rintro r h
            cases h
            exact ⟨c, hc, hs⟩
      | next c1 => exact ih (hstep c c1 hc hs)

end Configuration

namespace ParseTable

theorem parse?_eq_some_iff {n : Nat} {w : List τ} {r : ParseResult σ τ} :
    t.parse? n w = some r ↔ (Configuration.initial t w).run t n = .halted r := by
  unfold parse?
  split
  · next r' h => simp [h]
  · next c h => simp [h]

theorem parse?_add {n : Nat} {w : List τ} {r : ParseResult σ τ} (h : t.parse? n w = some r)
    (m : Nat) : t.parse? (n + m) w = some r :=
  parse?_eq_some_iff.mpr (Configuration.run_halted_add (parse?_eq_some_iff.mp h) m)

/-- The result does not depend on how many steps are allowed. -/
theorem parse?_unique {n m : Nat} {w : List τ} {r r' : ParseResult σ τ}
    (h : t.parse? n w = some r) (h' : t.parse? m w = some r') : r = r' := by
  have h1 := parse?_add h m
  have h2 := parse?_add h' n
  rw [Nat.add_comm, h2] at h1
  exact (Option.some.inj h1).symm

end ParseTable

end ShiftReduce
