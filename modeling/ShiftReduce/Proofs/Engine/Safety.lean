import ShiftReduce.Proofs.Automaton.AccessPaths
import ShiftReduce.Proofs.Engine.Soundness

/-! # No internal failures

The engine checks before each action that the stacks and the input allow it. On a
table of a grammar none of these checks ever fails, whatever the conflicts were.

- `Configuration.Permits`, `Configuration.Safe`: the stacks and the input hold what the
  next action needs.
- `Safe.result`: from there the engine fails only by rejecting its lookahead.
- `Spells.exists_reduction`, `Spells.length_accept`: why each action of a table can be
  done.
- `parse?_safe`: every configuration of every run is safe.
-/

namespace ShiftReduce

/-! ## What the actions need -/

namespace Configuration

variable {σ ν τ : Type}

/-- What the stacks and the input must hold for an action in the state `current`. -/
def Permits [BEq σ] (t : ParseTable σ ν) (c : Configuration σ τ) (current : σ) :
    ParseAction σ ν → Prop
  | .shift _ => c.input ≠ []
  | .reduce symbol length => length ≤ c.nodes.length ∧
      ∃ top under next, c.states.drop length = top :: under ∧ t.goto top symbol = some next ∧
        ¬ (length = 1 ∧ next == current)
  | .accept => ∃ root, c.nodes = [root]
  | .error => True

/-- There is a topmost state, and its action on the lookahead can be done. -/
def Safe [BEq σ] [Token τ] (t : ParseTable σ ν) (c : Configuration σ τ) : Prop :=
  ∃ current below, c.states = current :: below ∧
    c.Permits t current (t.action current c.lookahead)

variable [BEq σ] [Token τ] {t : ParseTable σ ν} {c : Configuration σ τ}

theorem Safe.result (h : c.Safe t) {r : ParseResult σ τ} (hstep : c.step t = .halt r) :
    (∃ T, r = .ok T) ∨ r = .error c.rejection := by
  obtain ⟨s, below, hstates, hpermits⟩ := h
  obtain ⟨states, nodes, input⟩ := c
  cases hstates
  change Permits t _ s (t.action s (input.head?.map Token.name)) at hpermits
  cases step_eq_iff.mp hstep with
  | shiftEnd _ _ action =>
      have hshift := hpermits
      rw [List.head?_nil, Option.map_none, action] at hshift
      exact absurd rfl hshift
  | short action room =>
      rw [action] at hpermits
      obtain ⟨hle, top, under, next, hdrop, -⟩ := hpermits
      have hlen := congrArg List.length hdrop
      rw [List.length_drop, List.length_cons, List.length_cons] at hlen
      change _ ≤ nodes.length at hle
      omega
  | missing action _ uncovered goto =>
      rw [action] at hpermits
      obtain ⟨-, top, under, next, hdrop, hnext, -⟩ := hpermits
      cases uncovered.symm.trans hdrop
      cases goto.symm.trans hnext
  | cyclic action _ uncovered goto back =>
      rw [action] at hpermits
      obtain ⟨-, top, under, next, hdrop, hnext, hguard⟩ := hpermits
      cases uncovered.symm.trans hdrop
      cases goto.symm.trans hnext
      exact absurd ⟨rfl, back⟩ hguard
  | accept _ root _ => exact .inl ⟨root, rfl⟩
  | several _ action other =>
      rw [action] at hpermits
      obtain ⟨root, hroot⟩ := hpermits
      change nodes = [root] at hroot
      exact absurd (congrArg List.length hroot) other
  | reject _ _ _ => exact .inr rfl

end Configuration

variable {g : Grammar} {a : Augmented} {τ : Type} [Token τ] {w : List τ}

/-! ## What a table asks for -/

namespace Augmented

/-- A reduction takes no more than there is, has a state to go to and, if it is made of
one symbol, does not lead back. -/
theorem Spells.exists_reduction (ha : Augments g a) (hacyclic : a.grammar.IsAcyclic)
    {s : StateId} {below : List StateId} {Xs : List Symbol} (h : a.Spells (s :: below) Xs)
    {r : RuleId} {rule : Rule} (hx : a.Finishes s r) (hr : r ≠ a.acceptRule)
    (hrule : a.grammar.rule? r = some rule) :
    rule.body.length ≤ Xs.length ∧ ∃ top under s',
      (s :: below).drop rule.body.length = top :: under ∧
        a.table.goto? top rule.head = some s' ∧ ¬ (rule.body.length = 1 ∧ s' = s) := by
  obtain ⟨hle, -, top, under, hdrop, -, hholds⟩ := h.uncover_body ha hx hrule
  obtain ⟨s', hnext⟩ := Spells.next?_head ha hholds hr hrule (hx.length_lt ha hrule)
  exact ⟨hle, top, under, s', hdrop, (goto?_eq top rule.head).trans hnext,
    h.unit_ne ha hacyclic hx hrule hdrop hnext⟩

theorem Spells.length_accept (ha : Augments g a) {s : StateId} {below : List StateId}
    {Xs : List Symbol} (h : a.Spells (s :: below) Xs) (hx : a.Holds s ⟨a.acceptRule, 1⟩) :
    Xs.length = 1 := by
  obtain ⟨hle, -, top, under, -, hspells, hholds⟩ :=
    h.uncover_body ha ((finishes_acceptRule_iff ha).mpr hx) ha.rule?_accept
  cases hholds.eq_start ha
  rw [List.length_singleton] at hle hspells
  generalize hrest : Xs.drop 1 = rest at hspells
  cases hspells with
  | start =>
      have hlen := List.drop_eq_nil_iff.mp hrest
      exact Nat.le_antisymm hlen hle
  | push _ next => exact absurd rfl (next?_ne_start ha next)

/-! ## Safety -/

/-- Whatever the engine has read, it can do what the table asks for next. -/
theorem Sound.safe (ha : Augments g a) (hacyclic : a.grammar.IsAcyclic)
    {c : Configuration StateId τ} (hc : Sound g a w c) : c.Safe a.table.parseTable := by
  obtain ⟨states, nodes, input⟩ := c
  obtain ⟨Xs, hspells, hforest, -⟩ := hc
  change a.Spells states Xs at hspells
  have hlen : nodes.length = Xs.length := by
    have h := hforest.length_eq
    rwa [List.length_reverse, List.length_reverse] at h
  obtain ⟨s, below, rfl⟩ := hspells.exists_cons
  refine ⟨s, below, rfl, ?_⟩
  cases haction : a.table.parseTable.action s (Configuration.lookahead ⟨s :: below, nodes, input⟩)
    with
  | shift s' =>
      obtain ⟨l, hl, hcell⟩ : ∃ l, a.grammar.Sees input l ∧ _ :=
        exists_sees_of_bind ha.outer (ParsingTable.engineAction_eq_shift haction)
      rintro rfl
      exact (claims_of_action? hcell).shift_ne_endOfInput ha hl
  | reduce n k =>
      obtain ⟨r, rule, hbind, hrule, rfl, rfl⟩ := ParsingTable.engineAction_eq_reduce haction
      obtain ⟨l, -, hcell⟩ : ∃ l, a.grammar.Sees input l ∧ _ :=
        exists_sees_of_bind ha.outer hbind
      obtain ⟨hfinishes, hr, -, -⟩ := (claims_of_action? hcell).finishes ha hrule
      obtain ⟨hle, top, under, s', hdrop, hgoto, hguard⟩ :=
        hspells.exists_reduction ha hacyclic hfinishes hr hrule
      exact ⟨hlen ▸ hle, top, under, s', hdrop, hgoto, mt (And.imp_right eq_of_beq) hguard⟩
  | accept =>
      obtain ⟨l, -, hcell⟩ : ∃ l, a.grammar.Sees input l ∧ _ :=
        exists_sees_of_bind ha.outer (ParsingTable.engineAction_eq_accept haction)
      obtain ⟨-, hholds⟩ := (claims_of_action? hcell).accept_item ha
      exact List.length_eq_one_iff.mp (hlen.trans (hspells.length_accept ha hholds))
  | error => trivial

end Augmented

/-- On a table of a grammar the next action can always be done: the end of the input is not
shifted, a reduction finds its children and a state to go to, which is not the one that a
reduction of one symbol has left, and one tree is there to be accepted. So a run that ends
returns a tree or rejects a token or the end of the input. -/
theorem parse?_safe (hg : g.IsBuilt) {policy : ConflictPolicy} {t : ParsingTable}
    (ht : g.table policy = .ok t) (w : List τ) (n : Nat) :
    (∀ c, (Configuration.initial t.parseTable w).run t.parseTable n = .running c →
      c.Safe t.parseTable) ∧
    ∀ r, t.parseTable.parse? n w = some r →
      (∃ T, r = .ok T) ∨ (∃ states x, r = .error (.unexpectedToken states x)) ∨
        ∃ states, r = .error (.unexpectedEnd states) := by
  obtain ⟨a, ha, rfl, hacyclic⟩ := hg.exists_augmented ht
  obtain ⟨hrunning, hhalted⟩ := Augmented.sound_of_run ha w (n := n)
  refine ⟨fun c hc => (hrunning c hc).safe ha hacyclic, fun r hr => ?_⟩
  obtain ⟨c, hc, hstep⟩ := hhalted r (ParseTable.parse?_eq_some_iff.mp hr)
  rcases (hc.safe ha hacyclic).result hstep with hok | rfl
  · exact .inl hok
  · right
    unfold Configuration.rejection
    split
    · exact .inl ⟨_, _, rfl⟩
    · exact .inr ⟨_, rfl⟩

/-- Of the two actions on `e` the table keeps the shift, and the optional `E` is empty at
the end of the input only. -/
theorem parse?_safe_dangling : ∃ g t c r,
    Grammar.ofSource "S, E\ni, e, x\nS -> i S E | x\nE -> e S | ε\n" = .ok g ∧
      g.table .warn = .ok t ∧ t.conflicts ≠ [] ∧
      (Configuration.initial t.parseTable ["i", "i", "x", "e", "x"]).run t.parseTable 8 =
        .running c ∧ c.states = [5, 4, 1, 1, 0] ∧ c.Safe t.parseTable ∧
      t.parseTable.parse? 13 ["i", "i", "x", "e", "x"] = some r ∧
      ((∃ T, r = .ok T) ∨ (∃ states x, r = .error (.unexpectedToken states x)) ∨
        ∃ states, r = .error (.unexpectedEnd states)) := by
  obtain ⟨g, t, hg, ht, hcheck⟩ :=
    exists_table "S, E\ni, e, x\nS -> i S E | x\nE -> e S | ε\n" .warn
      (fun _ t => decide (t.conflicts ≠ []) &&
        ((Configuration.initial t.parseTable ["i", "i", "x", "e", "x"]).run t.parseTable 8).isAt
          (fun c => decide (c.states = [5, 4, 1, 1, 0])) &&
        (t.parseTable.parse? 13 ["i", "i", "x", "e", "x"]).isSome) (by decide +kernel)
  rw [Bool.and_eq_true, Bool.and_eq_true, decide_eq_true_eq] at hcheck
  obtain ⟨⟨hconflicts, hat⟩, hhalted⟩ := hcheck
  obtain ⟨c, hc, hstates⟩ := Run.exists_of_isAt hat
  obtain ⟨r, hr⟩ := Option.isSome_iff_exists.mp hhalted
  have hbuilt : g.IsBuilt := .inr ⟨_, hg⟩
  exact ⟨g, t, c, r, hg, ht, hconflicts, hc, of_decide_eq_true hstates,
    (parse?_safe hbuilt ht _ 8).1 c hc, hr, (parse?_safe hbuilt ht _ 13).2 r hr⟩

end ShiftReduce
