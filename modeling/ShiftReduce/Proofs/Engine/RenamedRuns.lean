import ShiftReduce.Proofs.Engine.Steps

/-! # Runs on a table with other names

An engine asks its table about states and symbols, and only compares a state with another
one. So a table that has other names for them leads it through the same steps.

- `ParseTable.Renames`: the second table is the first one with other names for its states and
  symbols.
- `ParseError.map`, `Configuration.map`, `Run.map`: what a run meets, under the other names.
- `Renames.step_map`, `Renames.run_map`: the same step, and so the same run.
- `Renames.parse?_eq`: the same result, with other names for the states that it tells.
-/

namespace ShiftReduce

variable {σ σ' ν ν' τ : Type}

/-! ## Other names -/

def ParseAction.map (f : σ → σ') (k : ν → ν') : ParseAction σ ν → ParseAction σ' ν'
  | .shift next => .shift (f next)
  | .reduce symbol length => .reduce (k symbol) length
  | .accept => .accept
  | .error => .error

namespace ParseError

/-- The states that an error tells, under other names. The kind of the error, its token and its
symbol stay as they are. -/
def map (f : σ → σ') : ParseError σ τ → ParseError σ' τ
  | .unexpectedToken states token => .unexpectedToken (states.map f) token
  | .unexpectedEnd states => .unexpectedEnd (states.map f)
  | .missingGoto state symbol => .missingGoto (f state) symbol
  | .cyclicReduce state symbol => .cyclicReduce (f state) symbol
  | .inconsistentStack => .inconsistentStack

end ParseError

/-- A tree does not tell any states. -/
def ParseResult.map (f : σ → σ') (r : ParseResult σ τ) : ParseResult σ' τ :=
  r.mapError (ParseError.map f)

namespace Configuration

def map (f : σ → σ') (c : Configuration σ τ) : Configuration σ' τ :=
  ⟨c.states.map f, c.nodes, c.input⟩

theorem rejection_map (f : σ → σ') (c : Configuration σ τ) :
    (c.map f).rejection = c.rejection.map f := by
  obtain ⟨states, nodes, input⟩ := c
  cases input with
  | nil => simp [map, rejection, ParseError.map]
  | cons x rest => simp [map, rejection, ParseError.map]

end Configuration

def Step.map (f : σ → σ') : Step σ τ → Step σ' τ
  | .next c => .next (c.map f)
  | .halt r => .halt (r.map f)

def Run.map (f : σ → σ') : Run σ τ → Run σ' τ
  | .halted r => .halted (r.map f)
  | .running c => .running (c.map f)

/-- The second table says of each state and symbol what the first one says of those with the
other names. -/
structure ParseTable.Renames [BEq σ] [BEq σ'] (f : σ → σ') (k : ν → ν') (t : ParseTable σ ν)
    (u : ParseTable σ' ν') : Prop where
  same : ∀ s s', (f s == f s') = (s == s')
  initialState : u.initialState = f t.initialState
  action : ∀ s name, u.action (f s) name = (t.action s name).map f k
  goto : ∀ s n, u.goto (f s) (k n) = (t.goto s n).map f
  symbolName : ∀ n, u.symbolName (k n) = t.symbolName n

/-! ## The same steps -/

namespace ParseTable.Renames

variable [BEq σ] [BEq σ'] {f : σ → σ'} {k : ν → ν'} {t : ParseTable σ ν} {u : ParseTable σ' ν'}

omit [BEq σ] [BEq σ'] in
theorem drop_map {states under : List σ} {top : σ} {n : Nat} (h : states.drop n = top :: under) :
    (states.map f).drop n = f top :: under.map f := by
  rw [← List.map_drop, h, List.map_cons]

variable [Token τ]

theorem outcome_map (hr : Renames f k t u) {c : Configuration σ τ} {out : Step σ τ}
    (h : Configuration.Outcome t c out) : Configuration.Outcome u (c.map f) (out.map f) := by
  have haction : ∀ {s name action}, t.action s name = action →
      u.action (f s) name = action.map f k := by
    rintro s name action rfl
    exact hr.action s name
  have hgoto : ∀ {s n next}, t.goto s n = next → u.goto (f s) (k n) = next.map f := by
    rintro s n next rfl
    exact hr.goto s n
  cases h with
  | bare nodes input => exact .bare nodes input
  | shift below nodes rest action => exact .shift (below.map f) nodes rest (haction action)
  | shiftEnd below nodes action => exact .shiftEnd (below.map f) nodes (haction action)
  | short action room =>
      refine .short (haction action) ?_
      rwa [List.length_map]
  | missing action enough uncovered goto =>
      have himage := Configuration.Outcome.missing (haction action) enough (drop_map uncovered)
        (hgoto goto)
      rwa [hr.symbolName] at himage
  | cyclic action enough uncovered goto back =>
      have himage := Configuration.Outcome.cyclic (haction action) enough (drop_map uncovered)
        (hgoto goto) ((hr.same _ _).trans back)
      rwa [hr.symbolName] at himage
  | reduce action enough uncovered goto guard =>
      -- the other names compare alike, so the guard stops neither of both
      have himage := Configuration.Outcome.reduce (haction action) enough (drop_map uncovered)
        (hgoto goto) (fun hc => guard ⟨hc.1, (hr.same _ _).symm.trans hc.2⟩)
      rwa [hr.symbolName] at himage
  | accept below root action => exact .accept (below.map f) root (haction action)
  | several below action other => exact .several (below.map f) (haction action) other
  | @reject s below nodes input action =>
      have himage := Configuration.Outcome.reject (below.map f) nodes (haction action)
      have hrejection := Configuration.rejection_map f ⟨s :: below, nodes, input⟩
      show Configuration.Outcome u _ (.halt (.error _))
      rwa [← hrejection]

theorem step_map (hr : Renames f k t u) (c : Configuration σ τ) :
    (c.map f).step u = (c.step t).map f :=
  (hr.outcome_map (Configuration.outcome_step c)).step_eq

theorem run_map (hr : Renames f k t u) (n : Nat) (c : Configuration σ τ) :
    (c.map f).run u n = (c.run t n).map f := by
  induction n generalizing c with
  | zero => rfl
  | succ n ih =>
      rw [Configuration.run, Configuration.run, hr.step_map]
      cases c.step t with
      | halt r => rfl
      | next c' => exact ih c'

/-- Both tables parse an input within the same number of steps, with the same result but for
the names of states. -/
theorem parse?_eq (hr : Renames f k t u) (n : Nat) (w : List τ) :
    u.parse? n w = (t.parse? n w).map (ParseResult.map f) := by
  have hinitial : Configuration.initial u w = (Configuration.initial t w).map f := by
    rw [Configuration.initial, hr.initialState]
    rfl
  unfold ParseTable.parse?
  rw [hinitial, hr.run_map]
  cases (Configuration.initial t w).run t n <;> rfl

end ParseTable.Renames

end ShiftReduce
