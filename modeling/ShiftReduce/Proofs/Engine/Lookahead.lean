import ShiftReduce.Proofs.Engine.Steps

/-! # What the engine looks at

The engine knows tokens by their names only, and of the input only the lookahead.
So two inputs whose first tokens have the same names are treated alike as long as
these last. It does not look into the trees either.

- `Configuration.Alike`: the same states, as many trees, and inputs that begin with
  the same names.
- `Alike.step_next`, `Alike.step_error`: both make the same step.
- `run_alongside`: what two runs keep in common from step to step.
- `Alike.run`: so alike they go on.
- `Configuration.SameView`: the same states, as many trees and the same input.
- `SameView.run_again`: a run that comes back to the same view goes round forever.
-/

namespace ShiftReduce

namespace Configuration

variable {σ ν τ υ : Type} [Token τ] [Token υ]

/-- Whether the engine cannot tell the configurations apart before it comes to the
two rests of the inputs. -/
structure Alike (rest : List τ) (rest' : List υ) (c : Configuration σ τ)
    (c' : Configuration σ υ) : Prop where
  states : c.states = c'.states
  nodes : c.nodes.length = c'.nodes.length
  input : ∃ p p', c.input = p ++ rest ∧ c'.input = p' ++ rest' ∧
    p.map Token.name = p'.map Token.name

variable {rest : List τ} {rest' : List υ} {c d : Configuration σ τ} {c' : Configuration σ υ}

/-- A token is left before the rest, and it has the same name in both. -/
theorem Alike.cases_input (h : Alike rest rest' c c') (hlen : rest.length < c.input.length) :
    ∃ x p x' p', c.input = x :: (p ++ rest) ∧ c'.input = x' :: (p' ++ rest') ∧
      Token.name x = Token.name x' ∧ p.map Token.name = p'.map Token.name := by
  obtain ⟨p, p', hp, hp', hnames⟩ := h.input
  cases p with
  | nil =>
      rw [hp] at hlen
      exact absurd hlen (Nat.lt_irrefl _)
  | cons x p =>
      cases p' with
      | nil => cases hnames
      | cons x' p' =>
          rw [List.map_cons, List.map_cons, List.cons.injEq] at hnames
          exact ⟨x, p, x', p', hp, hp', hnames.1, hnames.2⟩

variable [BEq σ] {t : ParseTable σ ν}

/-- What both configurations do next. -/
theorem Alike.step (h : Alike rest rest' c c') (hlen : rest.length < c.input.length) :
    (∃ d d', c.step t = .next d ∧ c'.step t = .next d' ∧ Alike rest rest' d d') ∨
      (∃ e e', c.step t = .halt (.error e) ∧ c'.step t = .halt (.error e')) ∨
      ∃ r, c.step t = .halt (.ok r) := by
  obtain ⟨x, p, x', p', hx, hx', hname, hnames⟩ := h.cases_input hlen
  obtain ⟨hstates, hnodes, hinput⟩ := h
  obtain ⟨states, nodes, input⟩ := c
  obtain ⟨states', nodes', input'⟩ := c'
  cases hstates
  cases hx
  cases hx'
  change nodes.length = nodes'.length at hnodes
  have hlook : (x :: (p ++ rest)).head?.map Token.name =
      (x' :: (p' ++ rest')).head?.map Token.name := congrArg some hname
  generalize hout : Configuration.step t ⟨states, nodes, x :: (p ++ rest)⟩ = out
  cases step_eq_iff.mp hout with
  | bare _ _ => exact .inr (.inl ⟨_, _, rfl, (Outcome.bare nodes' _).step_eq⟩)
  | shift below _ _ action =>
      rw [hname] at action
      refine .inl ⟨_, _, rfl, (Outcome.shift below nodes' _ action).step_eq, rfl, ?_, p, p', rfl,
        rfl, hnames⟩
      exact congrArg Nat.succ hnodes
  | short action room =>
      rw [hlook] at action
      exact .inr (.inl ⟨_, _, rfl, (Outcome.short action (hnodes ▸ room)).step_eq⟩)
  | missing action enough uncovered goto =>
      rw [hlook] at action
      have hmissing := Outcome.missing action (hnodes ▸ enough) uncovered goto
      exact .inr (.inl ⟨_, _, rfl, hmissing.step_eq⟩)
  | cyclic action enough uncovered goto back =>
      rw [hlook] at action
      have hcyclic := Outcome.cyclic action (hnodes ▸ enough) uncovered goto back
      exact .inr (.inl ⟨_, _, rfl, hcyclic.step_eq⟩)
  | @reduce _ _ _ _ _ _ _ _ k action enough uncovered goto guard =>
      rw [hlook] at action
      have hreduce := Outcome.reduce action (hnodes ▸ enough) uncovered goto guard
      refine .inl ⟨_, _, rfl, hreduce.step_eq, rfl, ?_, x :: p, x' :: p', rfl, rfl, ?_⟩
      · show (nodes.drop k).length + 1 = (nodes'.drop k).length + 1
        rw [List.length_drop, List.length_drop, hnodes]
      · rw [List.map_cons, List.map_cons, hname, hnames]
  | accept below root action => exact .inr (.inr ⟨root, rfl⟩)
  | several below action other =>
      rw [hlook] at action
      exact .inr (.inl ⟨_, _, rfl, (Outcome.several below action (hnodes ▸ other)).step_eq⟩)
  | reject below _ action =>
      rw [hlook] at action
      exact .inr (.inl ⟨_, _, rfl, (Outcome.reject below nodes' action).step_eq⟩)

theorem Alike.step_next (h : Alike rest rest' c c') (hlen : rest.length < c.input.length)
    (hstep : c.step t = .next d) : ∃ d', c'.step t = .next d' ∧ Alike rest rest' d d' := by
  rcases h.step (t := t) hlen with ⟨d1, d', h1, h2, halike⟩ | ⟨e, e', h1, -⟩ | ⟨r, h1⟩
  · rw [hstep] at h1
    cases h1
    exact ⟨d', h2, halike⟩
  · rw [hstep] at h1
    cases h1
  · rw [hstep] at h1
    cases h1

theorem Alike.step_error (h : Alike rest rest' c c') (hlen : rest.length < c.input.length)
    {e : ParseError σ τ} (hstep : c.step t = .halt (.error e)) :
    ∃ e', c'.step t = .halt (.error e') := by
  rcases h.step (t := t) hlen with ⟨d1, d', h1, -, -⟩ | ⟨-, e', -, h2⟩ | ⟨r, h1⟩
  · rw [hstep] at h1
    cases h1
  · exact ⟨e', h2⟩
  · rw [hstep] at h1
    cases h1

/-- A step takes nothing from the input or its first token. -/
theorem step_input (hstep : c.step t = .next d) :
    d.input = c.input ∨ ∃ x, c.input = x :: d.input := by
  cases step_eq_iff.mp hstep with
  | @shift s s' below nodes x rest action => exact .inr ⟨x, rfl⟩
  | reduce action enough uncovered goto guard => exact .inl rfl

theorem run_input_suffix {n : Nat} (hrun : c.run t n = .running d) : d.input <:+ c.input := by
  refine (run_induction (P := fun d => d.input <:+ c.input) (List.suffix_refl _) ?_).1 d hrun
  intro d d' hd hstep
  rcases step_input hstep with he | ⟨x, hx⟩
  · exact he ▸ hd
  · exact ((hx ▸ List.suffix_cons x d'.input)).trans hd

theorem run_input_antitone {d' : Configuration σ τ} {m n : Nat} (h : c.run t m = .running d)
    (h' : c.run t n = .running d') (hmn : m ≤ n) : d'.input <:+ d.input := by
  obtain ⟨k, rfl⟩ := Nat.exists_eq_add_of_le hmn
  rw [run_add h] at h'
  exact run_input_suffix h'

/-- If each step of a run is made alongside as well, so is the whole run. -/
theorem run_alongside {R : Configuration σ τ → Configuration σ υ → Prop}
    (hstep : ∀ {c c' c1 k}, R c c' → c.step t = .next c1 → c1.run t k = .running d →
      ∃ c1', c'.step t = .next c1' ∧ R c1 c1')
    (h : R c c') {n : Nat} (hrun : c.run t n = .running d) :
    ∃ d', c'.run t n = .running d' ∧ R d d' := by
  induction n generalizing c c' with
  | zero =>
      cases hrun
      exact ⟨c', rfl, h⟩
  | succ n ih =>
      obtain ⟨c1, hc1, hrun1⟩ := exists_next_of_run hrun
      obtain ⟨c1', hc1', h1⟩ := hstep h hc1 hrun1
      rw [run_succ_of_next hc1']
      exact ih h1 hrun1

/-- Runs on inputs that begin alike are alike, until the rest is reached. -/
theorem Alike.run (h : Alike rest rest' c c') {n : Nat} (hrun : c.run t n = .running d)
    (hlen : rest.length < d.input.length) :
    ∃ d', c'.run t n = .running d' ∧ Alike rest rest' d d' := by
  refine run_alongside ?_ h hrun
  intro c c' c1 k h hnext hrest
  have hsuffix := run_input_suffix ((run_succ_of_next hnext k).trans hrest)
  exact h.step_next (Nat.lt_of_lt_of_le hlen hsuffix.length_le) hnext

/-! ## Runs that come back -/

/-- Whether the configurations differ in what the trees are at most. -/
structure SameView (c d : Configuration σ τ) : Prop where
  states : c.states = d.states
  nodes : c.nodes.length = d.nodes.length
  input : c.input = d.input

variable {e : Configuration σ τ}

omit [Token τ] [BEq σ] in
theorem SameView.trans (h : SameView c d) (h' : SameView d e) : SameView c e :=
  ⟨h.states.trans h'.states, h.nodes.trans h'.nodes, h.input.trans h'.input⟩

theorem SameView.step_next (h : SameView c d) (hstep : c.step t = .next e) :
    ∃ e', d.step t = .next e' ∧ SameView e e' := by
  obtain ⟨states, nodes, input⟩ := c
  obtain ⟨states', nodes', input'⟩ := d
  obtain ⟨hstates, hnodes, hinput⟩ := h
  cases hstates
  cases hinput
  change nodes.length = nodes'.length at hnodes
  cases step_eq_iff.mp hstep with
  | shift below _ rest action =>
      have hshift := Outcome.shift below nodes' rest action
      exact ⟨_, hshift.step_eq, rfl, congrArg Nat.succ hnodes, rfl⟩
  | @reduce _ _ _ _ _ _ _ _ k action enough uncovered goto guard =>
      have hreduce := Outcome.reduce action (hnodes ▸ enough) uncovered goto guard
      refine ⟨_, hreduce.step_eq, rfl, ?_, rfl⟩
      show (nodes.drop k).length + 1 = (nodes'.drop k).length + 1
      rw [List.length_drop, List.length_drop, hnodes]

theorem SameView.run (h : SameView c d) {n : Nat} (hrun : c.run t n = .running e) :
    ∃ e', d.run t n = .running e' ∧ SameView e e' :=
  run_alongside (fun h hstep _ => h.step_next hstep) h hrun

/-- What a run has gone through once it goes through again and again. -/
theorem SameView.run_again (h : SameView c d) {p : Nat} (hrun : c.run t p = .running d)
    (k : Nat) : ∃ e, c.run t (k * p) = .running e ∧ SameView c e := by
  induction k with
  | zero => exact ⟨c, by rw [Nat.zero_mul]; rfl, rfl, rfl, rfl⟩
  | succ k ih =>
      obtain ⟨e, he, hce⟩ := ih
      obtain ⟨e', he', hde⟩ := hce.run hrun
      exact ⟨e', by rw [Nat.succ_mul, run_add he, he'], h.trans hde⟩

end Configuration

end ShiftReduce
