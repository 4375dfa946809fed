import ShiftReduce.Proofs.Engine.Soundness

/-! # Every derivation tree is found

On a table without conflicts the engine follows a derivation tree of its input
from left to right, one step for each leaf and each node. Only where a node has more
children than a marker can count does it lose the way.

- `Tree.size`: how many steps that takes.
- `Tree.IsNarrow`: no node has too many children.
- `Tree.Derives.runs`: the steps of one tree, for any stack below it and any
  input after it.
- `isNarrow_of_parse?`: no other trees are returned, whatever the conflicts were.
- `parse?_of_isParse`: the derivation tree of an input is returned, and it is the
  only one.
-/

namespace ShiftReduce

/-! ## Sizes -/

mutual

/-- How many leaves and nodes there are. -/
def Tree.size {τ : Type} : Tree τ → Nat
  | .leaf _ => 1
  | .node _ ts => Tree.forestSize ts + 1

def Tree.forestSize {τ : Type} : List (Tree τ) → Nat
  | [] => 0
  | t :: ts => Tree.size t + Tree.forestSize ts

end

/-- No node has more than 65535 children, so that a marker can come behind each of them. -/
def Tree.IsNarrow {τ : Type} : Tree τ → Prop
  | .leaf _ => True
  | .node _ ts => ts.length < UInt16.size ∧ ∀ t ∈ ts, t.IsNarrow

variable {g : Grammar} {a : Augmented} {τ : Type} [Token τ]

/-! ## Narrow trees -/

mutual

/-- If all rules are short, so are the nodes of derivation trees. -/
theorem Tree.Derives.isNarrow (hfit : g.MarkersFit) :
    ∀ {X : Symbol} {T : Tree τ}, Tree.Derives g X T → T.IsNarrow
  | _, _, .leaf _ => by
      rw [Tree.IsNarrow]
      trivial
  | _, .node _ ts, .node ⟨r, hr, _, hbody⟩ children => by
      rw [Tree.IsNarrow, children.length_eq, ← hbody]
      exact ⟨hfit r hr, children.isNarrow hfit⟩

theorem Forest.Derives.isNarrow (hfit : g.MarkersFit) :
    ∀ {ss : List Symbol} {ts : List (Tree τ)}, Forest.Derives g ss ts → ∀ t ∈ ts, t.IsNarrow
  | _, _, .nil => by simp
  | _, _, .cons first others => by
      rw [List.forall_mem_cons]
      exact ⟨first.isNarrow hfit, others.isNarrow hfit⟩

end

namespace Augmented

/-- Reductions make narrow nodes, since a marker has come to the end of their rules. -/
theorem Moves.isNarrow (ha : Augments g a) {c c' : Configuration StateId τ} (h : a.Moves c c')
    (hc : ∀ t ∈ c.nodes, t.IsNarrow) : ∀ t ∈ c'.nodes, t.IsNarrow := by
  cases h with
  | shift sees action =>
      refine List.forall_mem_cons.mpr ⟨?_, hc⟩
      rw [Tree.IsNarrow]
      trivial
  | @reduce s s' top below under nodes input l r rule _ action found _ _ _ _ =>
      obtain ⟨hfinishes, -, -, -⟩ := (claims_of_action? action).finishes ha found
      refine List.forall_mem_cons.mpr ⟨?_, fun t ht => hc t (List.mem_of_mem_drop ht)⟩
      rw [Tree.IsNarrow, List.length_reverse]
      refine ⟨Nat.lt_of_le_of_lt (List.length_take_le _ _) (hfinishes.length_lt ha found), ?_⟩
      exact fun t ht => hc t (List.mem_of_mem_take (List.mem_reverse.mp ht))

theorem isNarrow_of_parse? (ha : Augments g a) {w : List τ} {n : Nat} {T : Tree τ}
    (h : a.table.parseTable.parse? n w = some (.ok T)) : T.IsNarrow := by
  have hinitial : ∀ t ∈ (Configuration.initial a.table.parseTable w).nodes, t.IsNarrow := by
    intro t ht
    cases ht
  have hstep : ∀ c c' : Configuration StateId τ, (∀ t ∈ c.nodes, t.IsNarrow) →
      c.step a.table.parseTable = .next c' → ∀ t ∈ c'.nodes, t.IsNarrow :=
    fun _ _ hc hs => ((step_eq_next_iff ha.outer).mp hs).isNarrow ha hc
  obtain ⟨c, hc, hhalt⟩ :=
    (Configuration.run_induction hinitial hstep).2 _ (ParseTable.parse?_eq_some_iff.mp h)
  obtain ⟨-, -, -, -, -, -, hnodes⟩ := step_eq_ok ha.outer hhalt
  exact hc T (hnodes ▸ List.mem_singleton_self T)

end Augmented

/-! ## Lookaheads -/

namespace Augmented

/-- The terminal can be the first of what stands in `after`, at the end of a rule of
`n`, and of what follows `n`. -/
def MayFollow (a : Augmented) (after : List Symbol) (n : NonterminalId) (l : TerminalId) :
    Prop :=
  (a.grammar.firstSets.ofSymbols after).terminals.contains l = true ∨
    after.all a.grammar.firstSets.isNullable = true ∧ a.Follows n l

theorem MayFollow.follows (ha : Augments g a) {n b : NonterminalId} {before after : List Symbol}
    {l : TerminalId} (h : a.MayFollow after n l)
    (hp : a.grammar.Produces n (before ++ .nonterminal b :: after)) : a.Follows b l := by
  rcases h with hfirst | ⟨hnull, hfollows⟩
  · exact followSets_first ha.outer hp hfirst
  · exact followSets_head ha.outer hp hnull hfollows

theorem MayFollow.append {ss after : List Symbol} {n : NonterminalId} {l : TerminalId}
    (h : a.MayFollow after n l) (hnull : ss.all a.grammar.firstSets.isNullable = true) :
    a.MayFollow (ss ++ after) n l := by
  rcases h with hfirst | ⟨hafter, hfollows⟩
  · exact .inl (FirstSets.contains_ofSymbols_append.mpr (.inr ⟨hnull, hfirst⟩))
  · refine .inr ⟨?_, hfollows⟩
    rw [List.all_append, hnull, hafter]
    rfl

end Augmented

/-- What is seen before a forest: its first leaf or, if it has none, what is seen
after it. -/
theorem exists_sees (ha : Augments g a) {ss : List Symbol} {ts : List (Tree τ)}
    (h : Forest.Derives g ss ts) {rest : List τ} {l : TerminalId}
    (hl : a.grammar.Sees rest l) {after : List Symbol} {n : NonterminalId}
    (hfollow : a.MayFollow after n l) :
    ∃ l', a.grammar.Sees (Tree.forestLeaves ts ++ rest) l' ∧
      a.MayFollow (ss ++ after) n l' := by
  obtain ⟨v, hv, hspelled⟩ := h.yields
  have hderives := ha.derives hv.derives
  cases v with
  | nil =>
      have hleaves : Tree.forestLeaves ts = [] := List.forall₂_nil_right_iff.mp hspelled
      rw [hleaves]
      exact ⟨l, hl, hfollow.append (isNullable_of_derives ha.outer hderives)⟩
  | cons t v =>
      obtain ⟨x, xs, hx, -, hleaves⟩ := List.forall₂_cons_right_iff.mp hspelled
      rw [hleaves]
      refine ⟨t, ha.names_iff.mpr hx, .inl (FirstSets.contains_ofSymbols_append.mpr (.inl ?_))⟩
      exact ofSymbols_of_derives ha.outer hderives (ofSymbols_terminal a.grammar.firstSets t _)

/-! ## Tables on which every claim is honoured -/

namespace Augmented

/-- The cells hold all that is claimed, and nothing derives itself in one step. -/
structure Deterministic (a : Augmented) : Prop where
  honoured : ∀ {s : StateId} {l : TerminalId} {action : Action}, a.Claims s l action →
    a.table.action? s l = some action
  acyclic : ∀ n, ¬ a.grammar.DerivesProperly [.nonterminal n] [.nonterminal n]

end Augmented

theorem Augments.deterministic (ha : Augments g a) (hnone : a.table.conflicts = [])
    (hcyclic : a.cyclicNames = []) : a.Deterministic where
  honoured := fun h => h.action? hnone
  acyclic := Augmented.isAcyclic_of_cyclicNames ha hcyclic

/-! ## One tree after the other -/

namespace Augmented

theorem step_shift (ha : Augments g a) (hd : a.Deterministic) {s s' : StateId} {t : TerminalId}
    (hnext : a.automaton.next? s (.terminal t) = some s') {x : τ} (hx : g.Names t (Token.name x))
    (below : List StateId) (nodes : List (Tree τ)) (rest : List τ) :
    (⟨s :: below, nodes, x :: rest⟩ : Configuration StateId τ).step a.table.parseTable =
      .next ⟨s' :: s :: below, .leaf x :: nodes, rest⟩ :=
  (step_eq_next_iff ha.outer).mpr (.shift (ha.names_iff.mpr hx) (hd.honoured (.shift hnext)))

/-- A reduction of all that an item has waited for. -/
theorem step_reduce (ha : Augments g a) (hd : a.Deterministic) {r : RuleId} {rule : Rule}
    (hrule : a.grammar.rule? r = some rule) (hr : r ≠ a.acceptRule) {s s' top : StateId}
    {below stack : List StateId} (hfinishes : a.Finishes top r) {Xs : List Symbol}
    (hspells : a.Spells (top :: stack) Xs)
    (hdrop : (top :: stack).drop rule.body.length = s :: below)
    (hnext : a.automaton.next? s (.nonterminal rule.head) = some s') {input : List τ}
    {l : TerminalId} (hl : a.grammar.Sees input l) (hfollow : a.Follows rule.head l)
    {ts : List (Tree τ)} (hts : ts.length = rule.body.length) (nodes : List (Tree τ)) :
    (⟨top :: stack, ts.reverse ++ nodes, input⟩ : Configuration StateId τ).step
        a.table.parseTable =
      .next ⟨s' :: s :: below, .node (a.grammar.nonterminalName rule.head) ts :: nodes,
        input⟩ := by
  have haction := hd.honoured (hfinishes.claims hr hrule hfollow)
  have hlen : rule.body.length = ts.reverse.length := by rw [List.length_reverse, hts]
  have hguard := hspells.unit_ne ha hd.acyclic hfinishes hrule hdrop hnext
  have hmoves : a.Moves ⟨top :: stack, ts.reverse ++ nodes, input⟩ _ :=
    .reduce hl haction hrule (by rw [List.length_append, hlen]; exact Nat.le_add_right _ _)
      hdrop ((goto?_eq s rule.head).trans hnext) hguard
  rw [hlen, List.take_left, List.drop_left, List.reverse_reverse] at hmoves
  exact (step_eq_next_iff ha.outer).mpr hmoves

/-- A state with a transition on the head of a rule holds the rule's first item. -/
theorem holds_of_next? (ha : Augments g a) {s s' : StateId} {r : RuleId} {rule : Rule}
    (hrule : a.grammar.rule? r = some rule)
    (hnext : a.automaton.next? s (.nonterminal rule.head) = some s') : a.Holds s ⟨r, 0⟩ := by
  obtain ⟨x, hx, hs, -⟩ := exists_holds_of_next? ha hnext
  have hmem := OrderedMap.mem_entries_of_find? hrule
  exact hx.reaches ha (.tail .refl (mem_predictions.mpr ⟨rule.head, rule, hs, hmem, rfl, rfl⟩))

end Augmented

open Augmented in
mutual

/-- Over a tree whose root may come next, the engine goes to the state behind it. -/
theorem Tree.Derives.runs (ha : Augments g a) (hd : a.Deterministic) :
    ∀ {X : Symbol} {T : Tree τ}, Tree.Derives g X T → T.IsNarrow →
    ∀ {s s' : StateId} {below : List StateId} {Xs : List Symbol} (nodes : List (Tree τ))
      {rest : List τ} {l : TerminalId}, a.Spells (s :: below) Xs →
    a.automaton.next? s X = some s' → a.grammar.Sees rest l →
    (∀ n, X = .nonterminal n → a.Follows n l) →
      (⟨s :: below, nodes, T.leaves ++ rest⟩ : Configuration StateId τ).run a.table.parseTable
        T.size = .running ⟨s' :: s :: below, T :: nodes, rest⟩
  | _, _, .leaf h, _, s, s', below, Xs, nodes, rest, l, _, hnext, _, _ => by
      rw [Tree.size, Tree.leaves]
      exact Configuration.run_succ_of_next (step_shift ha hd hnext h below nodes rest) 0
  | _, .node _ ts, .node rule children, hnarrow, s, s', below, Xs, nodes, rest, l, hspells,
      hnext, hl, hfollow => by
      rw [Tree.IsNarrow] at hnarrow
      have hlen := children.length_eq
      have hdeclared := rule.declared ha.inner
      obtain ⟨r, found, hrule, hinner, rfl, rfl⟩ := ha.exists_rule? rule
      -- the children, from left to right, and then the reduction to the root
      have hrest : (⟨r, 0⟩ : Item).rest a.grammar = found.body ++ [] := by
        rw [List.append_nil]
        exact body_eq hrule
      obtain ⟨top, stack, hdrop, hspells', ⟨y, hy, hyr, hend⟩, hrun⟩ :=
        children.runs ha hd hnarrow.2 nodes hspells (holds_of_next? ha hrule hnext) hrest hrule
          (hlen ▸ hnarrow.1) hl (.inr ⟨rfl, hfollow _ rfl⟩)
      rw [hlen] at hdrop
      have hfinishes : a.Finishes top r := ⟨y, hy, hyr, y.isComplete_iff.mpr hend⟩
      have hstep := step_reduce ha hd hrule hinner hfinishes hspells' hdrop hnext hl
        (hfollow _ rfl) hlen nodes
      rw [ha.nonterminalName_eq hdeclared] at hstep
      rw [Tree.size, Tree.leaves, Configuration.run_add hrun]
      exact Configuration.run_succ_of_next hstep 0

/-- Over trees that an item waits for, the engine goes to a state that holds an item of the same
rule with its marker behind them. -/
theorem Forest.Derives.runs (ha : Augments g a) (hd : a.Deterministic) :
    ∀ {ss : List Symbol} {ts : List (Tree τ)}, Forest.Derives g ss ts → (∀ t ∈ ts, t.IsNarrow) →
    ∀ {s : StateId} {below : List StateId} {Xs : List Symbol} (nodes : List (Tree τ))
      {rest : List τ} {l : TerminalId} {x : Item} {rule : Rule} {after : List Symbol},
    a.Spells (s :: below) Xs → a.Holds s x → x.rest a.grammar = ss ++ after →
    a.grammar.rule? x.rule = some rule → rule.body.length < UInt16.size → a.grammar.Sees rest l →
    a.MayFollow after rule.head l →
      ∃ top stack, (top :: stack).drop ts.length = s :: below ∧
        a.Spells (top :: stack) (ss.reverse ++ Xs) ∧
        (∃ y, a.Holds top y ∧ y.rule = x.rule ∧ y.rest a.grammar = after) ∧
        (⟨s :: below, nodes, Tree.forestLeaves ts ++ rest⟩ : Configuration StateId τ).run
          a.table.parseTable (Tree.forestSize ts) =
            .running ⟨top :: stack, ts.reverse ++ nodes, rest⟩
  | _, _, .nil, _, s, below, Xs, nodes, rest, l, x, rule, after, hspells, hholds, hrest, _, _,
      _, _ =>
      ⟨s, below, rfl, hspells, ⟨x, hholds, rfl, hrest⟩, rfl⟩
  | X :: ss, T :: ts, .cons first others, hnarrow, s, below, Xs, nodes, rest, l, x, rule, after,
      hspells, hholds, hrest, hrule, hshort, hl, hfollow => by
      rw [List.forall_mem_cons] at hnarrow
      have hX : x.nextSymbol? a.grammar = some X := by
        rw [Item.nextSymbol?_eq, hrest]
        rfl
      have hbody : (a.grammar.body x.rule).length < UInt16.size := by rwa [body_eq hrule]
      have hadvance : x.advance.rest a.grammar = ss ++ after := by
        rw [Item.rest_of_next (Item.advance_ne_zero hbody hX) hX] at hrest
        exact (List.cons.inj hrest).2
      obtain ⟨s1, hnext, hholds1⟩ := hholds.next? ha hX
      -- the lookahead behind the first tree begins the others or comes after them
      obtain ⟨l', hl', hfollow'⟩ := exists_sees ha others hl hfollow
      have hfirst : ∀ n, X = .nonterminal n → a.Follows n l' := by
        rintro n rfl
        have hproduces : a.grammar.Produces rule.head
            ((a.grammar.body x.rule).take x.marker.toNat ++ .nonterminal n :: (ss ++ after)) := by
          rw [← List.cons_append, ← hrest, Item.rest, List.take_append_drop, body_eq hrule]
          exact Grammar.produces_of_rule? hrule
        exact hfollow'.follows ha hproduces
      have hrun1 := first.runs ha hd hnarrow.1 nodes hspells hnext hl' hfirst
      obtain ⟨top, stack, hdrop, hspells', hholds', hrun2⟩ :=
        others.runs ha hd hnarrow.2 (T :: nodes) (.push hspells hnext) hholds1 hadvance hrule
          hshort hl hfollow
      refine ⟨top, stack, ?_, ?_, hholds', ?_⟩
      · rw [List.length_cons, ← List.drop_drop, hdrop]
        rfl
      · rw [List.reverse_cons, List.append_assoc]
        exact hspells'
      · rw [Tree.forestSize, Tree.forestLeaves, List.append_assoc, Configuration.run_add hrun1,
          hrun2, List.reverse_cons, List.append_assoc]
        rfl

end

/-! ## Completeness -/

namespace Augmented

/-- After the tree of the whole input comes the acceptance. -/
theorem run_of_isParse (ha : Augments g a) (hd : a.Deterministic) {w : List τ} {T : Tree τ}
    (hT : T.IsParse g w) (hnarrow : T.IsNarrow) :
    (Configuration.initial a.table.parseTable w).run a.table.parseTable (T.size + 1) =
      .halted (.ok T) := by
  obtain ⟨hderives, hleaves⟩ := hT
  have hforest : Forest.Derives g [.nonterminal g.start] [T] := .cons hderives .nil
  have hrest : (⟨a.acceptRule, 0⟩ : Item).rest a.grammar = [.nonterminal g.start] ++ [] :=
    ha.body_accept
  have hend : a.grammar.Sees ([] : List τ) endOfInput := rfl
  have hshort : 1 < UInt16.size := by decide
  obtain ⟨top, stack, -, -, ⟨y, hy, hyr, hdone⟩, hrun⟩ := hforest.runs ha hd
    (List.forall_mem_singleton.mpr hnarrow) [] .start (holds_start.mpr .refl) hrest
    ha.rule?_accept hshort hend (.inr ⟨rfl, followSets_start ha.outer⟩)
  have haccept := hd.honoured (.accept hy (y.isComplete_iff.mpr hdone) hyr)
  simp only [Tree.forestLeaves, Tree.forestSize, List.append_nil, hleaves, Nat.add_zero] at hrun
  have hrun' : (Configuration.initial a.table.parseTable w).run a.table.parseTable T.size =
      .running ⟨top :: stack, [T], []⟩ := hrun
  rw [Configuration.run_add hrun']
  exact Configuration.run_succ_of_halt (step_of_accept ha.outer hend haccept) 0

end Augmented

/-- Without conflicts, a narrow derivation tree of an input is what parsing returns, after one
step for each leaf and each node and one more. -/
theorem parse?_of_isParse (hg : g.IsBuilt) {t : ParsingTable} (ht : g.table .deny = .ok t)
    {w : List τ} {T : Tree τ} (hT : T.IsParse g w) (hnarrow : T.IsNarrow) :
    t.parseTable.parse? (T.size + 1) w = some (.ok T) := by
  obtain ⟨a, haug, rfl, hcyclic, hconflicts⟩ := table_eq_ok ht
  have ha := augments_of_augment hg.wellFormed haug
  have hd := ha.deterministic (hconflicts rfl) hcyclic
  exact ParseTable.parse?_eq_some_iff.mpr (Augmented.run_of_isParse ha hd hT hnarrow)

end ShiftReduce
