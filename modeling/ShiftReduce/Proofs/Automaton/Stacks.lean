import ShiftReduce.Proofs.Automaton.States

/-! # Stacks of states

A stack of states, told from the top, is a path of the automaton from the first
state, and so it spells a string of symbols.

- `Augmented.Spells`: the symbols, told from the top as well.
- `Augmented.Finishes`: a rule has come to its end in a state.
- `Spells.symbols_unique`, `Spells.states_unique`: each of both determines the
  other, the states without condition.
- `Spells.uncover`, `Spells.uncover_body`: the body of an item in the topmost state is found, up
  to its marker, on top of the stack.
- `Spells.next?_head`, `Spells.unit_ne`: where a reduction leads to.
- `Spells.derives`: what the stack spells is the beginning of a string that
  derives from the start symbol, if no marker overflows.
-/

namespace ShiftReduce

variable {g : Grammar} {a : Augmented}

/-! ## What an item waits for -/

/-- The symbols after the marker. -/
def Item.rest (g : Grammar) (x : Item) : List Symbol := (g.body x.rule).drop x.marker.toNat

theorem Item.nextSymbol?_eq (x : Item) : x.nextSymbol? g = (x.rest g).head? :=
  List.head?_drop.symm

theorem Item.isComplete_iff (x : Item) : x.isComplete g = true ↔ x.rest g = [] := by
  rw [isComplete, decide_eq_true_eq, rest, List.drop_eq_nil_iff]

theorem Item.exists_rest_of_next {x : Item} {X : Symbol} (h : x.nextSymbol? g = some X) :
    ∃ after, x.rest g = X :: after := by
  rw [nextSymbol?_eq, List.head?_eq_some_iff] at h
  exact h

theorem Item.rest_of_next {x : Item} {X : Symbol} (hne : x.advance.marker ≠ 0)
    (h : x.nextSymbol? g = some X) : x.rest g = X :: x.advance.rest g := by
  obtain ⟨hlt, rfl⟩ := List.getElem?_eq_some_iff.mp h
  rw [rest, rest, toNat_advance_of_ne_zero hne]
  exact List.drop_eq_getElem_cons hlt

theorem Item.toNat_marker_of_complete {x : Item} (hx : x.IsOf g) (hg : g.WellFormed)
    (h : x.isComplete g = true) : x.marker.toNat = (g.body x.rule).length := by
  obtain ⟨rule, hrule, hle⟩ := hx
  rw [body_eq (OrderedMap.find?_of_mem_entries hg.rule_keys hrule)]
  have hge := of_decide_eq_true h
  rw [body_eq (OrderedMap.find?_of_mem_entries hg.rule_keys hrule)] at hge
  exact Nat.le_antisymm hle hge

/-! ## Stacks -/

namespace Augmented

/-- The state holds an item of the rule with nothing after its marker. -/
def Finishes (a : Augmented) (s : StateId) (r : RuleId) : Prop :=
  ∃ x, a.Holds s x ∧ x.rule = r ∧ x.isComplete a.grammar = true

/-- A marker comes to the end of a short body only. -/
theorem Finishes.exists_item (ha : Augments g a) {s : StateId} {r : RuleId} (h : a.Finishes s r)
    {rule : Rule} (hrule : a.grammar.rule? r = some rule) :
    ∃ x, a.Holds s x ∧ x.rule = r ∧ x.marker.toNat = rule.body.length := by
  obtain ⟨x, hx, rfl, hcomplete⟩ := h
  refine ⟨x, hx, rfl, ?_⟩
  rw [Item.toNat_marker_of_complete (hx.isOf ha) ha.outer hcomplete, body_eq hrule]

theorem Finishes.length_lt (ha : Augments g a) {s : StateId} {r : RuleId} (h : a.Finishes s r)
    {rule : Rule} (hrule : a.grammar.rule? r = some rule) : rule.body.length < UInt16.size := by
  obtain ⟨x, -, -, hmarker⟩ := h.exists_item ha hrule
  exact hmarker ▸ x.marker.toNat_lt_size

inductive Spells (a : Augmented) : List StateId → List Symbol → Prop where
  | start : Spells a [Automaton.start] []
  | push {s s' : StateId} {below : List StateId} {X : Symbol} {Xs : List Symbol}
      (rest : Spells a (s :: below) Xs) (next : a.automaton.next? s X = some s') :
      Spells a (s' :: s :: below) (X :: Xs)

namespace Spells

theorem exists_cons {ss : List StateId} {Xs : List Symbol} (h : a.Spells ss Xs) :
    ∃ s below, ss = s :: below := by
  cases h with
  | start => exact ⟨_, _, rfl⟩
  | push _ _ => exact ⟨_, _, rfl⟩

theorem length {ss : List StateId} {Xs : List Symbol} (h : a.Spells ss Xs) :
    ss.length = Xs.length + 1 := by
  induction h with
  | start => rfl
  | push _ _ ih => exact congrArg Nat.succ ih

theorem drop {ss : List StateId} {Xs : List Symbol} (h : a.Spells ss Xs) {n : Nat}
    (hn : n ≤ Xs.length) : a.Spells (ss.drop n) (Xs.drop n) := by
  induction n generalizing ss Xs with
  | zero => exact h
  | succ n ih =>
      cases h with
      | start => exact absurd hn (Nat.not_succ_le_zero n)
      | push rest _ => exact ih rest (Nat.le_of_succ_le_succ hn)

theorem symbols_unique (ha : Augments g a) (hfit : a.grammar.MarkersFit) {ss : List StateId}
    {Xs Ys : List Symbol} (h : a.Spells ss Xs) (h' : a.Spells ss Ys) : Xs = Ys := by
  induction h generalizing Ys with
  | start =>
      cases h'
      rfl
  | push _ next ih =>
      cases h' with
      | push rest' next' => rw [next?_unique ha hfit next next', ih rest']

theorem states_unique {ss ss' : List StateId} {Xs : List Symbol} (h : a.Spells ss Xs)
    (h' : a.Spells ss' Xs) : ss = ss' := by
  induction h generalizing ss' with
  | start =>
      cases h'
      rfl
  | push _ next ih =>
      cases h' with
      | push rest' next' =>
          cases ih rest'
          rw [next] at next'
          cases next'
          rfl

theorem uncover (ha : Augments g a) {s : StateId} {below : List StateId} {Xs : List Symbol}
    (h : a.Spells (s :: below) Xs) {x : Item} (hx : a.Holds s x) :
    x.marker.toNat ≤ Xs.length ∧
      (Xs.take x.marker.toNat).reverse = (a.grammar.body x.rule).take x.marker.toNat ∧
      ∃ s' below', (s :: below).drop x.marker.toNat = s' :: below' ∧
        a.Spells (s' :: below') (Xs.drop x.marker.toNat) ∧ a.Holds s' ⟨x.rule, 0⟩ := by
  generalize hm : x.marker.toNat = m
  -- each state below holds the item with its marker one symbol earlier
  induction m generalizing s below Xs x with
  | zero =>
      have hx0 : x = ⟨x.rule, 0⟩ := Item.ext rfl (UInt16.toNat_inj.mp hm)
      exact ⟨Nat.zero_le _, rfl, s, below, rfl, h, hx0 ▸ hx⟩
  | succ m ih =>
      have hne : x.marker ≠ 0 := by
        rintro h0
        rw [h0] at hm
        cases hm
      cases h with
      | start => exact absurd hx.marker_start hne
      | @push s1 _ below X Xs rest next =>
          -- the item was moved here over the topmost symbol
          obtain ⟨y, hy, hX, rfl⟩ := Holds.of_next?_pos ha next hx hne
          have hym : y.marker.toNat = m := by
            rw [Item.toNat_advance_of_ne_zero hne] at hm
            exact Nat.succ.inj hm
          obtain ⟨hle, htake, s2, below2, hdrop, hspells, hholds⟩ := ih rest hy hym
          refine ⟨Nat.succ_le_succ hle, ?_, s2, below2, hdrop, hspells, hholds⟩
          rw [Item.nextSymbol?, hym] at hX
          show _ = (a.grammar.body y.rule).take (m + 1)
          rw [List.take_succ_cons, List.reverse_cons, htake, List.take_add_one, hX]
          rfl

/-- Where a rule has come to its end, its body is on top of the stack, and the state below has
the rule at its beginning. -/
theorem uncover_body (ha : Augments g a) {s : StateId} {below : List StateId} {Xs : List Symbol}
    (h : a.Spells (s :: below) Xs) {r : RuleId} (hr : a.Finishes s r) {rule : Rule}
    (hrule : a.grammar.rule? r = some rule) :
    rule.body.length ≤ Xs.length ∧ (Xs.take rule.body.length).reverse = rule.body ∧
      ∃ s' below', (s :: below).drop rule.body.length = s' :: below' ∧
        a.Spells (s' :: below') (Xs.drop rule.body.length) ∧ a.Holds s' ⟨r, 0⟩ := by
  obtain ⟨x, hx, rfl, hmarker⟩ := hr.exists_item ha hrule
  have huncover := h.uncover ha hx
  rwa [hmarker, body_eq hrule, List.take_length] at huncover

/-- The state that a reduction uncovers has a transition on the head. -/
theorem next?_head (ha : Augments g a) {s : StateId} {r : RuleId} {rule : Rule}
    (h : a.Holds s ⟨r, 0⟩) (hr : r ≠ a.acceptRule) (hrule : a.grammar.rule? r = some rule)
    (hshort : rule.body.length < UInt16.size) :
    ∃ s', a.automaton.next? s (.nonterminal rule.head) = some s' := by
  rcases h.predicted ha rfl (by rwa [body_eq hrule]) with he | ⟨y, hy, hpred⟩
  · exact absurd (congrArg Item.rule he) hr
  · obtain ⟨n, rule', hn, hmem, rfl, -⟩ := mem_predictions.mp hpred
    have hsame := OrderedMap.find?_of_mem_entries ha.outer.rule_keys hmem
    rw [Grammar.rule?, hsame] at hrule
    cases hrule
    obtain ⟨s', hs', -⟩ := hy.next? ha hn
    exact ⟨s', hs'⟩

/-- If no nonterminal derives itself, a reduction of one symbol does not lead back to the
state that it leaves. -/
theorem unit_ne (ha : Augments g a) (hacyclic : a.grammar.IsAcyclic)
    {s s' top : StateId} {below under : List StateId} {Xs : List Symbol}
    (h : a.Spells (s :: below) Xs) {r : RuleId} (hr : a.Finishes s r) {rule : Rule}
    (hrule : a.grammar.rule? r = some rule)
    (hdrop : (s :: below).drop rule.body.length = top :: under)
    (hnext : a.automaton.next? top (.nonterminal rule.head) = some s') :
    ¬ (rule.body.length = 1 ∧ s' = s) := by
  rintro ⟨hone, rfl⟩
  obtain ⟨-, hbody, -⟩ := h.uncover_body ha hr hrule
  obtain ⟨x, hx, -, hmarker⟩ := hr.exists_item ha hrule
  rw [hone] at hbody hdrop hmarker
  have hne : x.marker ≠ 0 := by
    intro h0
    rw [h0] at hmarker
    cases hmarker
  cases h with
  | start => cases hdrop
  | push _ next =>
      cases hdrop
      -- both transitions lead to one state, so the rule is a cycle by itself
      have hproduces := Grammar.produces_of_rule? hrule
      rw [← hbody, hx.symbol_unique ha hne next hnext] at hproduces
      exact hacyclic rule.head (.single hproduces.expands)

/-! ## Stacks as beginnings of sentential forms -/

/-- Predictions keep the string that an item stands for derivable. -/
theorem derives_of_reaches {x y : Item} (hxy : Reaches (predictions a.grammar) x y)
    {start before : List Symbol}
    (hx : ∃ after, a.grammar.Derives start (before ++ x.rest a.grammar ++ after))
    (ha : a.grammar.WellFormed) :
    ∃ after, a.grammar.Derives start (before ++ y.rest a.grammar ++ after) := by
  induction hxy with
  | refl => exact hx
  | @tail y z _ h1 ih =>
      obtain ⟨after, hd⟩ := ih
      obtain ⟨n, rule, hn, hmem, hhead, hmarker⟩ := mem_predictions.mp h1
      obtain ⟨later, hlater⟩ := Item.exists_rest_of_next hn
      refine ⟨later ++ after, hd.tail ?_⟩
      have hproduces : a.grammar.Produces n rule.body :=
        hhead ▸ Grammar.produces_of_mem hmem
      have hrest : z.rest a.grammar = rule.body := by
        rw [Item.rest, hmarker, body_eq (OrderedMap.find?_of_mem_entries ha.rule_keys hmem)]
        rfl
      rw [hlater, hrest, List.append_assoc before]
      exact Grammar.Expands.rule before (later ++ after) hproduces

/-- Every item in the topmost state continues the stack to a string that derives
from the start symbol. -/
theorem derives_item (ha : Augments g a) (hfit : a.grammar.MarkersFit) {ss : List StateId}
    {Xs : List Symbol} (h : a.Spells ss Xs) {s : StateId} (hs : ss.head? = some s) {x : Item}
    (hx : a.Holds s x) :
    ∃ after, a.grammar.Derives [.nonterminal g.start]
      (Xs.reverse ++ x.rest a.grammar ++ after) := by
  induction h generalizing s x with
  | start =>
      cases hs
      refine derives_of_reaches (holds_start.mp hx) ⟨[], ?_⟩ ha.outer
      have hrest : (⟨a.acceptRule, 0⟩ : Item).rest a.grammar = [.nonterminal g.start] :=
        ha.body_accept
      rw [hrest]
      exact .refl
  | @push s1 s2 below X Xs _ next ih =>
      cases hs
      obtain ⟨y, hy, hX, hyx⟩ := Holds.of_next? ha next hx
      refine derives_of_reaches hyx ?_ ha.outer
      obtain ⟨after, hd⟩ := ih rfl hy
      rw [Item.rest_of_next (hfit.advance_ne_zero hX) hX] at hd
      refine ⟨after, ?_⟩
      rw [List.reverse_cons, List.append_assoc _ [X]]
      exact hd

/-- What a stack spells is the beginning of a string that derives from the start
symbol. -/
theorem derives (ha : Augments g a) (hfit : a.grammar.MarkersFit) {ss : List StateId}
    {Xs : List Symbol} (h : a.Spells ss Xs) :
    ∃ after, g.Derives [.nonterminal g.start] (Xs.reverse ++ after) := by
  have hitem : ∃ s x, ss.head? = some s ∧ a.Holds s x := by
    cases h with
    | start => exact ⟨_, _, rfl, holds_start.mpr .refl⟩
    | push _ next =>
        obtain ⟨x, -, -, hx⟩ := exists_holds_of_next? ha next
        exact ⟨_, _, rfl, hx⟩
  obtain ⟨s, x, hs, hx⟩ := hitem
  obtain ⟨after, hd⟩ := h.derives_item ha hfit hs hx
  rw [List.append_assoc] at hd
  exact ⟨_, ha.derives_start_iff.mp hd⟩

end Spells

end Augmented

end ShiftReduce
