import ShiftReduce.Proofs.Automaton.Stacks
import ShiftReduce.Proofs.Engine.Moves
import ShiftReduce.Proofs.Grammar.Sources

/-! # The trees that the engine makes

- `Augmented.Sound`: the invariant of a run. The state stack spells the labels of
  the trees, the trees derive from them, and their leaves are the input that has
  been read.
- `Moves.sound`: each step keeps it.
- `parse?_isParse`: a tree that is returned is a derivation tree of the input.
-/

namespace ShiftReduce

variable {g : Grammar} {a : Augmented} {τ : Type} [Token τ] {w : List τ}

/-! ## The lookahead of the larger grammar -/

theorem Augments.names_iff (ha : Augments g a) {t : TerminalId} {name : String} :
    a.grammar.Names t name ↔ g.Names t name := by
  rw [Grammar.Names, Grammar.Names, ha.terminals]

/-! ## The invariant -/

namespace Augmented

/-- How the stacks and the input belong together while the engine reads `w`. -/
def Sound (g : Grammar) (a : Augmented) (w : List τ) (c : Configuration StateId τ) : Prop :=
  ∃ Xs, a.Spells c.states Xs ∧ Forest.Derives g Xs.reverse c.nodes.reverse ∧
    Tree.forestLeaves c.nodes.reverse ++ c.input = w

theorem sound_initial (g : Grammar) (a : Augmented) (w : List τ) :
    Sound g a w (.initial a.table.parseTable w) :=
  ⟨[], .start, .nil, rfl⟩

/-- There is one tree for each state but the first one. -/
theorem Sound.length_states {c : Configuration StateId τ} (hc : Sound g a w c) :
    c.states.length = c.nodes.length + 1 := by
  obtain ⟨Xs, hspells, hforest, -⟩ := hc
  have hlen := hforest.length_eq
  rw [List.length_reverse, List.length_reverse] at hlen
  rw [hspells.length, hlen]

/-- What a reduction takes from the stack is the body of its rule, and the head takes its
place. -/
theorem Spells.reduction (ha : Augments g a) {s s' top : StateId} {below under : List StateId}
    {Xs : List Symbol} (h : a.Spells (s :: below) Xs) {r : RuleId} {rule : Rule}
    (hx : a.Finishes s r) (hr : a.grammar.rule? r = some rule)
    (huncovered : (s :: below).drop rule.body.length = top :: under)
    (hgoto : a.table.goto? top rule.head = some s') :
    (Xs.take rule.body.length).reverse = rule.body ∧
      a.Spells (s' :: top :: under) (.nonterminal rule.head :: Xs.drop rule.body.length) := by
  obtain ⟨-, htake, top', under', hdrop, hspells, -⟩ := h.uncover_body ha hx hr
  cases huncovered.symm.trans hdrop
  exact ⟨htake, .push hspells ((goto?_eq top rule.head).symm.trans hgoto)⟩

theorem Moves.sound (ha : Augments g a) {c c' : Configuration StateId τ} (h : a.Moves c c')
    (hc : Sound g a w c) : Sound g a w c' := by
  obtain ⟨Xs, hspells, hforest, hleaves⟩ := hc
  cases h with
  | @shift s s' below nodes x rest l sees action =>
      cases claims_of_action? action with
      | shift next =>
          refine ⟨.terminal l :: Xs, .push hspells next, ?_, ?_⟩
          · rw [List.reverse_cons, List.reverse_cons]
            exact hforest.append (.cons (.leaf (ha.names_iff.mp sees)) .nil)
          · rw [List.reverse_cons, Tree.forestLeaves_append, List.append_assoc]
            exact hleaves
  | @reduce s s' top below under nodes input l r rule _ action found _ uncovered goto _ =>
      obtain ⟨hfinishes, -, hmem, -⟩ := (claims_of_action? action).finishes ha found
      obtain ⟨hbody, hspells'⟩ := hspells.reduction ha hfinishes found uncovered goto
      obtain ⟨hlower, hchildren⟩ := hforest.split_reverse rule.body.length
      rw [hbody] at hchildren
      have hproduces := Grammar.produces_of_mem hmem
      have hname := ha.nonterminalName_eq (hproduces.declared ha.inner)
      refine ⟨.nonterminal rule.head :: Xs.drop rule.body.length, hspells', ?_, ?_⟩
      · rw [List.reverse_cons, List.reverse_cons, hname]
        exact hlower.append (.cons (.node hproduces hchildren) .nil)
      · have hnodes := reverse_eq_drop_take rule.body.length nodes
        change Tree.forestLeaves nodes.reverse ++ input = w at hleaves
        rw [hnodes, Tree.forestLeaves_append] at hleaves
        rw [List.reverse_cons, Tree.forestLeaves_append]
        simp only [Tree.forestLeaves, Tree.leaves, List.append_nil]
        exact hleaves

/-- The invariant holds throughout a run and where it ends. -/
theorem sound_of_run (ha : Augments g a) (w : List τ) {n : Nat} :
    (∀ c, (Configuration.initial a.table.parseTable w).run a.table.parseTable n = .running c →
      Sound g a w c) ∧
    ∀ r, (Configuration.initial a.table.parseTable w).run a.table.parseTable n = .halted r →
      ∃ c, Sound g a w c ∧ c.step a.table.parseTable = .halt r :=
  Configuration.run_induction (sound_initial g a w)
    fun _ _ hc h => ((step_eq_next_iff ha.outer).mp h).sound ha hc

/-- Where the first state and one more are on the stack, accepting is right. -/
theorem Sound.isParse (ha : Augments g a) {c : Configuration StateId τ} {T : Tree τ}
    (hc : Sound g a w c) (h : c.step a.table.parseTable = .halt (.ok T)) : T.IsParse g w := by
  obtain ⟨states, nodes, input⟩ := c
  obtain ⟨Xs, hspells, hforest, hleaves⟩ := hc
  obtain ⟨s, below, l, rfl, hsees, haction, rfl⟩ := step_eq_ok ha.outer h
  obtain ⟨rfl, hholds⟩ := (claims_of_action? haction).accept_item ha
  -- nothing is left to be read
  have hinput : input = [] := by
    cases input with
    | nil => rfl
    | cons y rest => exact absurd rfl (Grammar.Names.ne_endOfInput hsees)
  subst hinput
  obtain ⟨-, htake, -⟩ := hspells.uncover_body ha ((finishes_acceptRule_iff ha).mpr hholds)
    ha.rule?_accept
  have hlen := hforest.length_eq
  rw [List.length_reverse, List.length_reverse] at hlen
  obtain ⟨X, rfl⟩ := List.length_eq_one_iff.mp hlen.symm
  cases htake
  cases hforest with
  | cons first _ =>
      refine ⟨first, ?_⟩
      have hT : Tree.forestLeaves [T] ++ [] = w := hleaves
      simpa [Tree.forestLeaves] using hT

end Augmented

/-! ## Soundness -/

/-- A tree that parsing returns derives from the start symbol of the grammar, by
its own rules, and its leaves are the tokens of the input. -/
theorem parse?_isParse (hg : g.IsBuilt) {policy : ConflictPolicy} {t : ParsingTable}
    (ht : g.table policy = .ok t) {n : Nat} {T : Tree τ}
    (h : t.parseTable.parse? n w = some (.ok T)) : T.IsParse g w := by
  obtain ⟨a, haug, rfl, -, -⟩ := table_eq_ok ht
  have ha := augments_of_augment hg.wellFormed haug
  obtain ⟨c, hc, hstep⟩ :=
    (Augmented.sound_of_run ha w).2 _ (ParseTable.parse?_eq_some_iff.mp h)
  exact hc.isParse ha hstep

/-- An ambiguous grammar: its conflicts are settled, and the tree is one of two. -/
theorem parse?_isParse_ambiguous : ∃ g t,
    Grammar.ofSource "E\nn, +\nE -> E + E | n\n" = .ok g ∧ g.table .warn = .ok t ∧
      t.conflicts ≠ [] ∧
      Tree.IsParse g ["n", "+", "n", "+", "n"] (.node "E" [.node "E" [.leaf "n"], .leaf "+",
        .node "E" [.node "E" [.leaf "n"], .leaf "+", .node "E" [.leaf "n"]]]) := by
  obtain ⟨g, t, hg, ht, hcheck⟩ := exists_table "E\nn, +\nE -> E + E | n\n" .warn
    (fun _ t => decide (t.conflicts ≠ [] ∧ t.parseTable.parse? 11 ["n", "+", "n", "+", "n"] =
      some (.ok (.node "E" [.node "E" [.leaf "n"], .leaf "+",
        .node "E" [.node "E" [.leaf "n"], .leaf "+", .node "E" [.leaf "n"]]]))))
    (by decide +kernel)
  obtain ⟨hconflicts, hparse⟩ := of_decide_eq_true hcheck
  exact ⟨g, t, hg, ht, hconflicts, parse?_isParse (.inr ⟨_, hg⟩) ht hparse⟩

end ShiftReduce
