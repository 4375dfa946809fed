import ShiftReduce.Proofs.Grammar.Phases

/-! # Numbers without gaps

Numbers are given out one after the other, and a grammar that is taken up again goes on where it
ended.

- `Draft.Counts`: the numbers that are in use are those below the next one, in order.
- `Draft.withStart`, `ofGrammar_eq`: the draft of a grammar is the one that it was made of, up to
  the choice of the start symbol.
- `Reachable.counts`: so there are no gaps in any phase.
- `Grammar.IsDefined.counts`: what this says of a grammar that is taken up again.
-/

namespace ShiftReduce

theorem OrderedMap.size_of_keys_eq_range {α : Type} {m : OrderedMap Nat α} {n : Nat}
    (h : m.keys = List.range n) : m.size = n := by
  have hlength := congrArg List.length h
  rwa [keys, List.length_map, List.length_range] at hlength

namespace Draft

structure Counts (d : Draft) : Prop where
  terminals : d.terminals.keys = List.range d.nextTerminal
  nonterminals : d.nonterminals.keys = List.range d.nextNonterminal
  rules : d.rules.keys = List.range d.nextRule
  terminal_room : d.nextTerminal ≤ idLimit
  nonterminal_room : d.nextNonterminal ≤ idLimit
  rule_room : d.nextRule ≤ idLimit

variable {d d' : Draft}

/-! ## Declarations -/

theorem counts_empty : empty.Counts where
  terminals := rfl
  nonterminals := rfl
  rules := rfl
  terminal_room := by decide
  nonterminal_room := by decide
  rule_room := by decide

/-- The number that is given out comes behind those that are in use. -/
theorem keys_insert_eq_range {α : Type} {number : α → Nat} {m : OrderedMap Nat α} {next : Nat}
    (h : Numbered number m next) (hm : m.keys = List.range next) (a : α) :
    (m.insert next a).keys = List.range (next + 1) := by
  rw [h.keys_insert, hm, List.range_succ]

theorem Counts.declareTerminal (hc : d.Counts) (hd : d.WellFormed) {name : String}
    {t : TerminalId} (h : d.declareTerminal name = .ok (t, d')) : d'.Counts := by
  obtain ⟨-, -, hroom⟩ := declareTerminal_isOk_iff.mp ⟨_, h⟩
  obtain ⟨-, -, -, rfl⟩ := declareTerminal_eq_ok h
  exact { hc with
    terminals := keys_insert_eq_range hd.terminals hc.terminals _
    terminal_room := hroom }

theorem Counts.declareNonterminal (hc : d.Counts) (hd : d.WellFormed) {name : String}
    {n : NonterminalId} (h : d.declareNonterminal name = .ok (n, d')) : d'.Counts := by
  obtain ⟨-, -, hroom⟩ := declareNonterminal_isOk_iff.mp ⟨_, h⟩
  obtain ⟨-, -, -, rfl⟩ := declareNonterminal_eq_ok h
  exact { hc with
    nonterminals := keys_insert_eq_range hd.nonterminals hc.nonterminals _
    nonterminal_room := hroom }

theorem Counts.addRule (hc : d.Counts) (hd : d.WellFormed) {head : NonterminalId}
    {body : List Symbol} {r : RuleId} (h : d.addRule head body = .ok (r, d')) : d'.Counts := by
  obtain ⟨hhead, hbody, ⟨-, rfl⟩ | ⟨hnew, -, rfl⟩⟩ := addRule_eq_ok h
  · exact hc
  · have hroom : d.nextRule < idLimit := by
      apply ((addRule_isOk_iff (OrderedMap.contains_iff.mpr hhead) hbody).mp ⟨_, h⟩).resolve_left
      rintro ⟨x, hx, hrule⟩
      exact hnew x hx hrule
    exact { hc with
      rules := keys_insert_eq_range hd.rules hc.rules _
      rule_room := hroom }

theorem Counts.declare (hc : d.Counts) (hd : d.WellFormed) {c : Declaration} {id : Option Nat}
    (h : d.declare c = .ok (id, d')) : d'.Counts := by
  cases c with
  | terminal name =>
      obtain ⟨⟨t, e⟩, he, h⟩ := exists_of_map_eq_ok h
      cases h
      exact hc.declareTerminal hd he
  | nonterminal name =>
      obtain ⟨⟨n, e⟩, he, h⟩ := exists_of_map_eq_ok h
      cases h
      exact hc.declareNonterminal hd he
  | rule head body =>
      obtain ⟨⟨r, e⟩, he, h⟩ := exists_of_map_eq_ok h
      cases h
      exact hc.addRule hd he
  | start n =>
      obtain ⟨e, he, h⟩ := exists_of_map_eq_ok h
      cases h
      obtain ⟨-, rfl⟩ := setStart_eq_ok he
      exact { hc with }
  | fail reason => cases h

theorem Counts.perform (hc : d.Counts) (hd : d.WellFormed) (c : Declaration) :
    (d.perform c).2.Counts := by
  unfold Draft.perform
  split
  · next h => exact hc.declare hd h
  · exact hc

/-! ## Taking a grammar up again -/

/-- The draft in which `n` is the start symbol unless another one has been chosen. -/
def withStart (d : Draft) (n : NonterminalId) : Draft := { d with start := some (d.start.getD n) }

theorem above_range (n : Nat) : above (List.range n) = n := by
  unfold above
  induction n with
  | zero => rfl
  | succ n ih =>
      rw [List.range_succ, List.foldl_append, ih]
      exact Nat.max_eq_right (Nat.le_succ n)

theorem WellFormed.nextTerminal_pos (hd : d.WellFormed) : 1 ≤ d.nextTerminal := by
  have hend : endOfInput ∈ d.terminals.keys :=
    OrderedMap.mem_keys.mpr ⟨_, OrderedMap.mem_entries_of_find? hd.end_of_input⟩
  exact hd.terminals.below endOfInput hend

/-- The next numbers that are found from those in use are the ones that come next. -/
theorem Counts.ofGrammar_eq (hc : d.Counts) (hd : d.WellFormed) {g : Grammar}
    (made : d.finish = .ok g) : ofGrammar g = d.withStart g.start := by
  obtain ⟨hstart, ht, hn, hr⟩ := finish_eq_ok made
  have hchosen : d.start.getD g.start = g.start := by
    rcases hstart with hs | ⟨hs, -⟩
    · rw [hs, Option.getD_some]
    · rw [hs, Option.getD_none]
  rw [ofGrammar, withStart, ht, hn, hr, hchosen, hc.terminals, hc.nonterminals, hc.rules,
    above_range, above_range, above_range, Nat.max_eq_left hd.nextTerminal_pos]

theorem Reachable.counts (h : d.Reachable) : d.Counts := by
  induction h with
  | empty => exact counts_empty
  | perform h c ih => exact ih.perform h.wellFormed c
  | extend h made ih =>
      rw [ih.ofGrammar_eq h.wellFormed made]
      exact { ih with }

end Draft

/-! ## Grammars -/

namespace Grammar

variable {g : Grammar}

theorem IsDefined.exists_reachable (hg : g.IsDefined) :
    ∃ d : Draft, d.Reachable ∧ d.finish = .ok g := by
  induction hg with
  | define h => exact ⟨_, Draft.Reachable.empty.performAll _, h⟩
  | extend _ h ih =>
      obtain ⟨d, hd, made⟩ := ih
      exact ⟨_, (hd.extend made).performAll _, h⟩

theorem IsDefined.counts (hg : g.IsDefined) : (Draft.ofGrammar g).Counts := by
  obtain ⟨d, hd, made⟩ := hg.exists_reachable
  exact (hd.extend made).counts

end Grammar

end ShiftReduce
