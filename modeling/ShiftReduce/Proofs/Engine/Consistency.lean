import Mathlib.Algebra.Group.Nat.Defs
import ShiftReduce.Engine.Event
import ShiftReduce.Proofs.Engine.Steps
import ShiftReduce.Proofs.Tree.Forests

/-! # Runs on any table

The engine does not rely on its table. Whatever the table says, its two stacks belong
together and no token is lost, so what it reports about the input is right.

- `Configuration.Consistent`: the invariant of a run; `Consistent.step`: each step keeps it.
- `Consistent.exists_uncover`: nothing is taken from a stack that does not hold it.
- `Configuration.read`, `shiftedTokens`: the tokens in the trees, and those that a run has
  told to be shifted; `read_of_run`: they are the same.
- `Configuration.Explains`: what a result says about the configuration in which it was given.
- `run_consistent`: all of this for every table, every input and every number of steps.
-/

namespace ShiftReduce

variable {σ ν τ : Type}

/-- The token that an event tells to be shifted. -/
def ParseEvent.shiftedToken? : ParseEvent σ τ → Option τ
  | .shifted token _ => some token
  | _ => none

def shiftedTokens (events : List (ParseEvent σ τ)) : List τ :=
  events.filterMap ParseEvent.shiftedToken?

namespace Configuration

/-! ## Stacks and input -/

/-- The tokens in the trees, from the bottom of the stack. -/
def read (c : Configuration σ τ) : List τ := Tree.forestLeaves c.nodes.reverse

/-- How the stacks and the input belong together while the engine reads `w`. -/
structure Consistent (t : ParseTable σ ν) (w : List τ) (c : Configuration σ τ) : Prop where
  /-- There is a state below the trees and one on each of them. -/
  heights : c.states.length = c.nodes.length + 1
  bottom : c.states.getLast? = some t.initialState
  /-- Each token is in the trees or still to be read. -/
  tokens : c.read ++ c.input = w

variable {t : ParseTable σ ν} {w : List τ} {c c' : Configuration σ τ}

theorem consistent_initial (t : ParseTable σ ν) (w : List τ) : (initial t w).Consistent t w :=
  ⟨rfl, rfl, rfl⟩

theorem Consistent.exists_top (h : c.Consistent t w) : ∃ s below, c.states = s :: below := by
  apply List.exists_cons_of_length_pos
  rw [h.heights]
  exact Nat.succ_pos _

/-- Taking trees that are there leaves a state to go on from. -/
theorem Consistent.exists_uncover (h : c.Consistent t w) {k : Nat} (hk : k ≤ c.nodes.length) :
    ∃ children nodes top under, c.uncover k = some (children, nodes, top, under) ∧
      children.length = k ∧ nodes.length + k = c.nodes.length ∧
      under.length = nodes.length := by
  have hlength : (c.states.drop k).length = (c.nodes.drop k).length + 1 := by
    rw [List.length_drop, List.length_drop, h.heights]
    omega
  obtain ⟨top, under, hdrop⟩ := List.exists_cons_of_length_eq_add_one hlength
  refine ⟨_, _, top, under, uncover_eq_some_iff.mpr ⟨hk, rfl, rfl, hdrop⟩, ?_, ?_, ?_⟩
  · simp [hk]
  · simp [hk]
  · rw [hdrop, List.length_cons] at hlength
    exact Nat.succ.inj hlength

theorem read_cons (s : σ) (states : List σ) (T : Tree τ) (nodes : List (Tree τ))
    (input : List τ) :
    read ⟨s :: states, T :: nodes, input⟩ = read ⟨states, nodes, input⟩ ++ T.leaves := by
  simp [read, Tree.forestLeaves_append, Tree.forestLeaves]

/-- The leaves of a node are those of the trees that it is made of. -/
theorem read_reduce (s : σ) (states states' : List σ) (name : String) (k : Nat)
    (nodes : List (Tree τ)) (input : List τ) :
    read ⟨s :: states, .node name (nodes.take k).reverse :: nodes.drop k, input⟩ =
      read ⟨states', nodes, input⟩ := by
  rw [read_cons, Tree.leaves, read, read, reverse_eq_drop_take k nodes,
    Tree.forestLeaves_append]

/-! ## Steps -/

variable [Token τ] [BEq σ]

/-- A step moves one token from the input to the trees, and says so, or none. -/
theorem read_step (hstep : c.step t = .next c') :
    c'.read = c.read ++ shiftedTokens (c.event? t).toList ∧
      c'.read ++ c'.input = c.read ++ c.input := by
  cases step_eq_iff.mp hstep with
  | @shift s s' below nodes x rest action =>
      have hevent : event? t ⟨s :: below, nodes, x :: rest⟩ = some (.shifted x s') := by
        simp [event?, lookahead, action]
      rw [hevent, read_cons, Tree.leaves]
      exact ⟨rfl, List.append_assoc _ _ _⟩
  | @reduce s s' top below under nodes input n k action enough uncovered goto guard =>
      have huncover : uncover ⟨s :: below, nodes, input⟩ k = some _ :=
        uncover_eq_some_iff.mpr ⟨enough, rfl, rfl, uncovered⟩
      have hevent : event? t ⟨s :: below, nodes, input⟩ =
          some (.reduced (t.symbolName n) k s') := by
        simp [event?, reduceEvent?, lookahead, action, huncover, goto]
      rw [hevent, read_reduce s' _ (s :: below)]
      exact ⟨(List.append_nil _).symm, rfl⟩

theorem Consistent.step (h : c.Consistent t w) (hstep : c.step t = .next c') :
    c'.Consistent t w := by
  obtain ⟨-, htokens⟩ := read_step hstep
  obtain ⟨hheights, hbottom, hw⟩ := h
  cases step_eq_iff.mp hstep with
  | @shift s s' below nodes x rest action =>
      refine ⟨congrArg Nat.succ hheights, ?_, htokens.trans hw⟩
      rw [List.getLast?_cons_cons]
      exact hbottom
  | @reduce s s' top below under nodes input n k action enough uncovered goto guard =>
      change (s :: below).length = nodes.length + 1 at hheights
      change (s :: below).getLast? = some t.initialState at hbottom
      refine ⟨?_, ?_, htokens.trans hw⟩
      · have hlength := congrArg List.length uncovered
        rw [List.length_drop, hheights, List.length_cons] at hlength
        simp only [List.length_cons, List.length_drop]
        omega
      · -- the states that are left end where the stack ended before
        have hshort : ¬ (s :: below).length ≤ k := by omega
        rw [List.getLast?_cons_cons, ← uncovered, List.getLast?_drop, if_neg hshort]
        exact hbottom

/-! ## Runs -/

theorem consistent_of_run {n : Nat} (hrun : (initial t w).run t n = .running c) :
    c.Consistent t w :=
  (run_induction (P := Consistent t w) (consistent_initial t w) fun _ _ h hs => h.step hs).1
    c hrun

/-- The tokens in the trees are those that the run has told to be shifted. -/
theorem read_of_run {d : Configuration σ τ} {n : Nat} (hrun : c.run t n = .running d) :
    d.read = c.read ++ shiftedTokens (c.events t n) := by
  induction n generalizing c with
  | zero =>
      cases hrun
      exact (List.append_nil _).symm
  | succ n ih =>
      obtain ⟨c1, hstep, hrest⟩ := exists_next_of_run hrun
      rw [ih hrest, (read_step hstep).1, events, hstep, List.append_assoc, shiftedTokens,
        shiftedTokens, shiftedTokens, List.filterMap_append]

/-! ## Results -/

/-- The action of the topmost state under the lookahead. -/
def action? (t : ParseTable σ ν) (c : Configuration σ τ) : Option (ParseAction σ ν) :=
  c.states.head?.map fun s => t.action s c.lookahead

/-- The table asks to shift the end of the input, to take more trees than there are, or to
accept something else than one tree. -/
def Overdrawn (t : ParseTable σ ν) (c : Configuration σ τ) : Prop :=
  match c.action? t with
  | some (.shift _) => c.input = []
  | some (.reduce _ k) => c.nodes.length < k
  | some .accept => c.nodes.length ≠ 1
  | _ => False

/-- What a result says about the configuration in which it was given. -/
def Explains (t : ParseTable σ ν) (c : Configuration σ τ) : ParseResult σ τ → Prop
  -- the tree is the only one, and its leaves are the tokens that have been read
  | .ok T => c.nodes = [T] ∧ Tree.Enumerates [T] c.read
  | .error (.unexpectedToken states x) => states = c.states.reverse ∧ ∃ rest, c.input = x :: rest
  | .error (.unexpectedEnd states) => states = c.states.reverse ∧ c.input = []
  | .error (.missingGoto s name) => ∃ n k, c.action? t = some (.reduce n k) ∧
      c.states[k]? = some s ∧ t.goto s n = none ∧ name = t.symbolName n
  | .error (.cyclicReduce s name) => ∃ n top below, c.action? t = some (.reduce n 1) ∧
      c.states.head? = some top ∧ c.states[1]? = some below ∧ t.goto below n = some s ∧
      (s == top) = true ∧ name = t.symbolName n
  | .error .inconsistentStack => c.Overdrawn t

theorem explains_rejection (t : ParseTable σ ν) (c : Configuration σ τ) :
    c.Explains t (.error c.rejection) := by
  unfold rejection
  cases hinput : c.input with
  | nil => exact ⟨rfl, hinput⟩
  | cons x rest => exact ⟨rfl, rest, hinput⟩

theorem Consistent.explains (h : c.Consistent t w) {r : ParseResult σ τ}
    (hstep : c.step t = .halt r) : c.Explains t r := by
  cases step_eq_iff.mp hstep with
  | bare nodes input => exact absurd h.heights (Nat.succ_ne_zero _).symm
  | shiftEnd _ _ action => simp [Explains, Overdrawn, action?, lookahead, action]
  | @short s below nodes input n k action room =>
      have hheights : below.length = nodes.length := Nat.succ.inj h.heights
      simp only [Explains, Overdrawn, action?, lookahead, List.head?_cons, Option.map_some, action]
      omega
  | @missing s top below under nodes input n k action enough uncovered goto =>
      refine ⟨n, k, ?_, ?_, goto, rfl⟩
      · simp [action?, lookahead, action]
      · rw [← List.head?_drop, uncovered, List.head?_cons]
  | @cyclic s s' top below under nodes input n action enough uncovered goto back =>
      refine ⟨n, s, top, ?_, rfl, ?_, goto, back, rfl⟩
      · simp [action?, lookahead, action]
      · rw [← List.head?_drop, uncovered, List.head?_cons]
  | @accept s below root input action =>
      refine ⟨rfl, Tree.enumerates_iff.mpr ?_⟩
      rw [read, List.reverse_singleton]
  | several below action other =>
      simp only [Explains, Overdrawn, action?, lookahead, List.head?_cons, Option.map_some, action]
      exact other
  | reject below nodes _ => exact explains_rejection t _

end Configuration

/-- For every table, every input and every number of steps: while the engine runs there is one
state more than there are trees, the first state is the lowest one, what a reduction takes is
there, and the tokens in the trees and those that are left are the input; the ones in the trees
are those that were shifted. A result is given in such a configuration. A tree is the only one
there, and its leaves, one after the other, are the tokens that were shifted. A token is
rejected with all states if it is the first one that was not shifted, and the end of the input
if all tokens were shifted. -/
theorem run_consistent [Token τ] [BEq σ] (t : ParseTable σ ν) (w : List τ) (n : Nat) :
    (∀ c, (Configuration.initial t w).run t n = .running c →
      c.Consistent t w ∧ c.read = shiftedTokens ((Configuration.initial t w).events t n) ∧
      ∀ k ≤ c.nodes.length, ∃ children nodes top under,
        c.uncover k = some (children, nodes, top, under) ∧ children.length = k ∧
          nodes.length + k = c.nodes.length ∧ under.length = nodes.length) ∧
    ∀ r, t.parse? n w = some r →
      ∃ m c, m < n ∧ (Configuration.initial t w).run t m = .running c ∧ c.Consistent t w ∧
        c.read = shiftedTokens ((Configuration.initial t w).events t m) ∧ c.Explains t r := by
  constructor
  · intro c hrun
    have hc := Configuration.consistent_of_run hrun
    exact ⟨hc, Configuration.read_of_run hrun, fun k hk => hc.exists_uncover hk⟩
  · intro r hr
    obtain ⟨m, c, hm, hrun, hhalt⟩ :=
      Configuration.exists_last_of_run (ParseTable.parse?_eq_some_iff.mp hr)
    have hc := Configuration.consistent_of_run hrun
    exact ⟨m, c, hm, hrun, hc, Configuration.read_of_run hrun, hc.explains hhalt⟩

/-- A table that accepts before the input is read, and that takes more than any stack holds if
the input ends before that. -/
def hastyTable : ParseTable Nat Unit where
  initialState := 0
  action s name :=
    match s, name with
    | 0, some "a" => .shift 1
    | 1, some "b" => .accept
    | 1, none => .reduce () (2 ^ 64 - 1)
    | _, _ => .error
  goto _ _ := some 1
  symbolName _ := "A"

theorem run_consistent_hasty :
    (∃ c : Configuration Nat String,
      (Configuration.initial hastyTable ["a", "b"]).run hastyTable 1 = .running c ∧
        c.states = [1, 0] ∧ c.Consistent hastyTable ["a", "b"] ∧ c.read = ["a"]) ∧
    (∃ m, ∃ c : Configuration Nat String, m < 2 ∧
      (Configuration.initial hastyTable ["a", "b"]).run hastyTable m = .running c ∧
        c.Explains hastyTable (.ok (.leaf "a"))) ∧
    ∃ m, ∃ c : Configuration Nat String, m < 2 ∧
      (Configuration.initial hastyTable ["a"]).run hastyTable m = .running c ∧
        c.Overdrawn hastyTable := by
  refine ⟨?_, ?_, ?_⟩
  · obtain ⟨hc, hread, -⟩ := (run_consistent hastyTable ["a", "b"] 1).1 _ rfl
    exact ⟨_, rfl, rfl, hc, hread⟩
  · obtain ⟨m, c, hm, hrun, -, -, hexplains⟩ := (run_consistent hastyTable ["a", "b"] 2).2 _ rfl
    exact ⟨m, c, hm, hrun, hexplains⟩
  · obtain ⟨m, c, hm, hrun, -, -, hexplains⟩ := (run_consistent hastyTable ["a"] 2).2
      (.error .inconsistentStack) rfl
    exact ⟨m, c, hm, hrun, hexplains⟩

end ShiftReduce
