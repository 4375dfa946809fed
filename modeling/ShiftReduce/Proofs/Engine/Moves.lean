import ShiftReduce.Proofs.Engine.Steps
import ShiftReduce.Proofs.Table.Cells
import ShiftReduce.Proofs.Tree.Forests
import ShiftReduce.Table.Parse

/-! # The engine on a table of a grammar

- `Grammar.Sees`: the terminal that is the lookahead of an input.
- `Augmented.Moves`: the steps of the engine, told by the cells of the table.
- `step_eq_next_iff`: these are all steps that do not halt.
- `step_eq_ok`, `step_of_accept`: how the engine accepts.
-/

namespace ShiftReduce

variable {g : Grammar} {a : Augmented} {τ : Type} [Token τ]

/-! ## The lookahead -/

/-- The first token is an instance of the terminal, or there is none left. -/
def Grammar.Sees (g : Grammar) : List τ → TerminalId → Prop
  | [], l => l = endOfInput
  | x :: _, l => g.Names l (Token.name x)

namespace Augmented

theorem lookahead?_eq_some_iff (ha : a.grammar.WellFormed) {input : List τ} {l : TerminalId} :
    a.table.lookahead? (input.head?.map Token.name) = some l ↔ a.grammar.Sees input l := by
  cases input with
  | nil =>
      simp only [List.head?_nil, Option.map_none, ParsingTable.lookahead?, Option.some.injEq,
        Grammar.Sees]
      exact eq_comm
  | cons x rest =>
      simp only [List.head?_cons, Option.map_some, ParsingTable.lookahead?, Grammar.Sees,
        Option.map_eq_some_iff]
      constructor
      · rintro ⟨y, hy, rfl⟩
        have hfound := List.find?_some hy
        obtain ⟨hname, hne⟩ := of_decide_eq_true hfound
        exact ⟨y, List.mem_of_find?_eq_some hy, rfl, hname, hne⟩
      · rintro ⟨y, hy, rfl, hname, hne⟩
        cases hfind : a.table.grammar.grammar.terminals.values.find? fun z =>
            z.name = Token.name x ∧ z.id ≠ endOfInput with
        | none =>
            have h := List.find?_eq_none.mp hfind y hy
            exact absurd (decide_eq_true ⟨hname, hne⟩) h
        | some z =>
            have hfound := List.find?_some hfind
            obtain ⟨hz, hzne⟩ := of_decide_eq_true hfound
            refine ⟨z, rfl, ?_⟩
            -- no two terminals have one name
            have hzn : a.grammar.Names z.id (Token.name x) :=
              ⟨z, List.mem_of_find?_eq_some hfind, rfl, hz, hzne⟩
            exact hzn.unique ha ⟨y, hy, rfl, hname, hne⟩

/-! ## Steps that go on -/

/-- A step of the engine that does not halt. -/
inductive Moves (a : Augmented) : Configuration StateId τ → Configuration StateId τ → Prop where
  | shift {s s' : StateId} {below : List StateId} {nodes : List (Tree τ)} {x : τ}
      {rest : List τ} {l : TerminalId} (sees : a.grammar.Names l (Token.name x))
      (action : a.table.action? s l = some (.shift s')) :
      Moves a ⟨s :: below, nodes, x :: rest⟩ ⟨s' :: s :: below, .leaf x :: nodes, rest⟩
  | reduce {s s' top : StateId} {below under : List StateId} {nodes : List (Tree τ)}
      {input : List τ} {l : TerminalId} {r : RuleId} {rule : Rule}
      (sees : a.grammar.Sees input l) (action : a.table.action? s l = some (.reduce r))
      (found : a.grammar.rule? r = some rule) (enough : rule.body.length ≤ nodes.length)
      (uncovered : (s :: below).drop rule.body.length = top :: under)
      (goto : a.table.goto? top rule.head = some s')
      (guard : ¬ (rule.body.length = 1 ∧ s' = s)) :
      Moves a ⟨s :: below, nodes, input⟩
        ⟨s' :: top :: under, .node (a.grammar.nonterminalName rule.head)
          (nodes.take rule.body.length).reverse :: nodes.drop rule.body.length, input⟩

/-- What the engine does in a state is what the cell under the lookahead says. -/
theorem engineAction_of_sees (ha : a.grammar.WellFormed) {s : StateId} {input : List τ}
    {l : TerminalId} (hl : a.grammar.Sees input l) :
    a.table.parseTable.action s (input.head?.map Token.name) =
      a.table.engineAction (a.table.action? s l) := by
  rw [ParsingTable.parseTable]
  simp only [(lookahead?_eq_some_iff ha).mpr hl, Option.bind_some]

theorem exists_sees_of_bind (ha : a.grammar.WellFormed) {s : StateId} {input : List τ}
    {action : Action}
    (h : (a.table.lookahead? (input.head?.map Token.name)).bind (a.table.action? s) =
      some action) :
    ∃ l, a.grammar.Sees input l ∧ a.table.action? s l = some action := by
  obtain ⟨l, hl, haction⟩ := Option.bind_eq_some_iff.mp h
  exact ⟨l, (lookahead?_eq_some_iff ha).mp hl, haction⟩

end Augmented

namespace ParsingTable

variable {t : ParsingTable} {action : Option Action}

theorem engineAction_eq_shift {s : StateId} (h : t.engineAction action = .shift s) :
    action = some (.shift s) := by
  unfold engineAction at h
  split at h
  · cases h
    rfl
  · split at h <;> cases h
  · cases h
  · cases h

theorem engineAction_eq_reduce {n : NonterminalId} {k : Nat}
    (h : t.engineAction action = .reduce n k) :
    ∃ r rule, action = some (.reduce r) ∧ t.grammar.grammar.rule? r = some rule ∧
      rule.head = n ∧ rule.body.length = k := by
  unfold engineAction at h
  split at h
  · cases h
  · next r =>
      split at h
      · next rule hrule =>
          cases h
          exact ⟨r, rule, rfl, hrule, rfl, rfl⟩
      · cases h
  · cases h
  · cases h

theorem engineAction_reduce {r : RuleId} {rule : Rule}
    (h : t.grammar.grammar.rule? r = some rule) :
    t.engineAction (some (.reduce r)) = .reduce rule.head rule.body.length := by
  rw [engineAction, h]

theorem engineAction_eq_accept (h : t.engineAction action = .accept) :
    action = some .accept := by
  unfold engineAction at h
  split at h
  · cases h
  · split at h <;> cases h
  · rfl
  · cases h

end ParsingTable

namespace Augmented

/-- The steps that do not halt are the moves. -/
theorem step_eq_next_iff (ha : a.grammar.WellFormed) {c c' : Configuration StateId τ} :
    c.step a.table.parseTable = .next c' ↔ a.Moves c c' := by
  rw [Configuration.step_eq_iff]
  constructor
  · intro h
    cases h with
    | @shift s s' below nodes x rest action =>
        obtain ⟨l, hl, hcell⟩ : ∃ l, a.grammar.Sees (x :: rest) l ∧ _ :=
          exists_sees_of_bind ha (ParsingTable.engineAction_eq_shift action)
        exact .shift hl hcell
    | reduce action enough uncovered goto guard =>
        obtain ⟨r, rule, hbind, hrule, rfl, rfl⟩ := ParsingTable.engineAction_eq_reduce action
        obtain ⟨l, hl, hcell⟩ := exists_sees_of_bind ha hbind
        exact .reduce hl hcell hrule enough uncovered goto
          (mt (And.imp_right beq_iff_eq.mpr) guard)
  · intro h
    cases h with
    | @shift s s' below nodes x rest l sees action =>
        have hsees : a.grammar.Sees (x :: rest) l := sees
        have haction := engineAction_of_sees ha (s := s) hsees
        rw [action] at haction
        exact .shift below nodes rest haction
    | @reduce s s' top below under nodes input l r rule sees action found enough uncovered goto
        guard =>
        have haction := engineAction_of_sees ha (s := s) sees
        rw [action, ParsingTable.engineAction_reduce found] at haction
        exact .reduce haction enough uncovered goto (mt (And.imp_right beq_iff_eq.mp) guard)

/-! ## Steps that halt -/

/-- The engine accepts where the cell at the end of the input says so. -/
theorem step_eq_ok (ha : a.grammar.WellFormed) {c : Configuration StateId τ} {T : Tree τ}
    (h : c.step a.table.parseTable = .halt (.ok T)) :
    ∃ s below l, c.states = s :: below ∧ a.grammar.Sees c.input l ∧
      a.table.action? s l = some .accept ∧ c.nodes = [T] := by
  rw [Configuration.step_eq_iff] at h
  cases h with
  | @accept s below root input action =>
      obtain ⟨l, hl, hcell⟩ :=
        exists_sees_of_bind ha (ParsingTable.engineAction_eq_accept action)
      exact ⟨s, below, l, rfl, hl, hcell, rfl⟩

theorem step_of_accept (ha : a.grammar.WellFormed) {s : StateId} {below : List StateId}
    {T : Tree τ} {input : List τ} {l : TerminalId} (hl : a.grammar.Sees input l)
    (h : a.table.action? s l = some .accept) :
    (⟨s :: below, [T], input⟩ : Configuration StateId τ).step a.table.parseTable =
      .halt (.ok T) := by
  have haction := engineAction_of_sees ha (s := s) hl
  rw [h] at haction
  exact (Configuration.Outcome.accept below T haction).step_eq

end Augmented

end ShiftReduce
