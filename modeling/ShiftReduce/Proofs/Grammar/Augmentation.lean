import ShiftReduce.Grammar.Augmented
import ShiftReduce.Grammar.Derivation
import ShiftReduce.Proofs.Grammar.Sources

/-! # What augmenting a grammar adds

- `Augments g a`: `a` has the symbols and rules of `g` in the same order, one
  fresh start symbol and one rule, from it to the start symbol of `g`.
- `augments_of_augment`: that is what `Grammar.augment` makes.
- `isDefined_of_augment`: what holds of all defined grammars holds of the larger one.
- `Augments.derives_iff`: a string without the new symbol derives the same
  strings in both grammars.
-/

namespace ShiftReduce

structure Augments (g : Grammar) (a : Augmented) : Prop where
  inner : g.WellFormed
  outer : a.grammar.WellFormed
  terminals : a.grammar.terminals = g.terminals
  nonterminals : ∃ name, a.grammar.nonterminals.entries =
    g.nonterminals.entries ++ [(a.grammar.start, ⟨a.grammar.start, name⟩)]
  rules : a.grammar.rules.entries = g.rules.entries ++
    [(a.acceptRule, ⟨a.acceptRule, a.grammar.start, [.nonterminal g.start]⟩)]
  innerStart : a.innerStart = g.start
  start_fresh : a.grammar.start ∉ g.nonterminals.keys
  accept_fresh : a.acceptRule ∉ g.rules.keys

/-- The declarations of `augment`, one after the other. -/
theorem augment_eq_ok {g : Grammar} {a : Augmented} (h : g.augment = .ok a) :
    ∃ d1 d2 d3, (Draft.ofGrammar g).declareNonterminal g.freshStartName =
        .ok (a.grammar.start, d1) ∧
      d1.addRule a.grammar.start [.nonterminal g.start] = .ok (a.acceptRule, d2) ∧
      d2.setStart a.grammar.start = .ok d3 ∧ d3.finish = .ok a.grammar ∧
      a.innerStart = g.start := by
  unfold Grammar.augment at h
  obtain ⟨⟨start, d1⟩, h1, h⟩ := exists_of_bind_eq_ok h
  obtain ⟨⟨acceptRule, d2⟩, h2, h⟩ := exists_of_bind_eq_ok h
  obtain ⟨d3, h3, h⟩ := exists_of_bind_eq_ok h
  obtain ⟨grammar, h4, h⟩ := exists_of_bind_eq_ok h
  cases h
  have hstart : grammar.start = start := by
    obtain ⟨-, rfl⟩ := Draft.setStart_eq_ok h3
    obtain ⟨hs | ⟨hs, -⟩, -⟩ := Draft.finish_eq_ok h4
    · exact (Option.some.inj hs).symm
    · cases hs
  subst hstart
  exact ⟨d1, d2, d3, h1, h2, h3, h4, rfl⟩

/-- The new symbol comes last, under the fresh name. -/
theorem nonterminals_of_augment {g : Grammar} {a : Augmented} (hg : g.WellFormed)
    (h : g.augment = .ok a) : a.grammar.nonterminals.entries =
      g.nonterminals.entries ++ [(a.grammar.start, ⟨a.grammar.start, g.freshStartName⟩)] := by
  obtain ⟨d1, d2, d3, h1, h2, h3, h4, -⟩ := augment_eq_ok h
  have hfresh := (Draft.wellFormed_ofGrammar hg).nonterminals
  obtain ⟨-, -, hstart, rfl⟩ := Draft.declareNonterminal_eq_ok h1
  obtain ⟨-, rfl⟩ := Draft.setStart_eq_ok h3
  obtain ⟨-, -, hn, -⟩ := Draft.finish_eq_ok h4
  obtain ⟨-, -, ⟨-, rfl⟩ | ⟨-, -, rfl⟩⟩ := Draft.addRule_eq_ok h2
  · rw [hn, hstart]
    exact hfresh.entries_insert _
  · rw [hn, hstart]
    exact hfresh.entries_insert _

theorem augments_of_augment {g : Grammar} {a : Augmented} (hg : g.WellFormed)
    (h : g.augment = .ok a) : Augments g a := by
  obtain ⟨d1, d2, d3, h1, h2, h3, h4, h5⟩ := augment_eq_ok h
  have hnonterminals := nonterminals_of_augment hg h
  have w0 := Draft.wellFormed_ofGrammar hg
  have w1 := w0.declareNonterminal h1
  have w2 := w1.addRule h2
  have w3 := w2.setStart h3
  obtain ⟨-, -, hstart, rfl⟩ := Draft.declareNonterminal_eq_ok h1
  have hfresh : a.grammar.start ∉ g.nonterminals.keys := by
    rw [hstart]
    exact w0.nonterminals.fresh
  obtain ⟨-, rfl⟩ := Draft.setStart_eq_ok h3
  obtain ⟨-, ht, -, hr⟩ := Draft.finish_eq_ok h4
  obtain ⟨-, -, ⟨⟨x, hx, -, hhead, -⟩, -⟩ | ⟨-, haccept, rfl⟩⟩ := Draft.addRule_eq_ok h2
  · -- a rule of the fresh symbol cannot be there already
    exact absurd (hhead ▸ hg.heads x hx) hfresh
  · refine ⟨hg, w3.finish h4, ht, ⟨g.freshStartName, hnonterminals⟩, ?_, h5, hfresh, ?_⟩
    · rw [hr, haccept]
      exact w1.rules.entries_insert _
    · rw [haccept]
      exact w1.rules.fresh

/-- The larger grammar is made by declarations as well. -/
theorem isDefined_of_augment {g : Grammar} {a : Augmented} (hg : g.IsDefined)
    (h : g.augment = .ok a) : a.grammar.IsDefined := by
  obtain ⟨d1, d2, d3, h1, h2, h3, h4, -⟩ := augment_eq_ok h
  have hlead : (Draft.ofGrammar g).Leads d3 :=
    (Draft.leads_declareNonterminal h1).trans
      ((Draft.leads_addRule h2).trans (Draft.leads_setStart h3))
  obtain ⟨cs, rfl⟩ := hlead
  exact .extend hg h4

namespace Augments

variable {g : Grammar} {a : Augmented}

/-! ## Symbols and rules -/

theorem mem_rules_iff (h : Augments g a) {r : RuleId} {x : Rule} :
    (r, x) ∈ a.grammar.rules.entries ↔ (r, x) ∈ g.rules.entries ∨
      (r = a.acceptRule ∧ x = ⟨a.acceptRule, a.grammar.start, [.nonterminal g.start]⟩) := by
  rw [h.rules, List.mem_append, List.mem_singleton, Prod.mk.injEq]

theorem rule?_accept (h : Augments g a) :
    a.grammar.rule? a.acceptRule =
      some ⟨a.acceptRule, a.grammar.start, [.nonterminal g.start]⟩ :=
  OrderedMap.find?_of_mem_entries h.outer.rule_keys (h.mem_rules_iff.mpr (.inr ⟨rfl, rfl⟩))

theorem body_accept (h : Augments g a) :
    a.grammar.body a.acceptRule = [.nonterminal g.start] := by
  rw [Grammar.body, h.rule?_accept]

theorem nonterminal_keys (h : Augments g a) :
    a.grammar.nonterminals.keys = g.nonterminals.keys ++ [a.grammar.start] := by
  obtain ⟨name, hnames⟩ := h.nonterminals
  simp [OrderedMap.keys, hnames]

/-- A rule of the larger grammar is the added one or a rule of the smaller one. -/
theorem mem_rules_of_ne (h : Augments g a) {r : RuleId} {x : Rule}
    (hx : a.grammar.rule? r = some x) (hr : r ≠ a.acceptRule) : (r, x) ∈ g.rules.entries :=
  (h.mem_rules_iff.mp (OrderedMap.mem_entries_of_find? hx)).resolve_right fun e => hr e.1

/-- The number of a rule of the smaller grammar. -/
theorem exists_rule? (h : Augments g a) {n : NonterminalId} {body : List Symbol}
    (hp : g.Produces n body) : ∃ r rule, a.grammar.rule? r = some rule ∧ r ≠ a.acceptRule ∧
      rule.head = n ∧ rule.body = body := by
  obtain ⟨rule, hrule, hhead, hbody⟩ := hp
  obtain ⟨r, hr⟩ := OrderedMap.mem_values.mp hrule
  have hfind := OrderedMap.find?_of_mem_entries h.outer.rule_keys (h.mem_rules_iff.mpr (.inl hr))
  refine ⟨r, rule, hfind, ?_, hhead, hbody⟩
  rintro rfl
  exact h.accept_fresh (OrderedMap.mem_keys.mpr ⟨rule, hr⟩)

theorem produces_iff (h : Augments g a) {n : NonterminalId} {body : List Symbol} :
    a.grammar.Produces n body ↔ g.Produces n body ∨
      (n = a.grammar.start ∧ body = [.nonterminal g.start]) := by
  have hv : a.grammar.rules.values = g.rules.values ++
      [⟨a.acceptRule, a.grammar.start, [.nonterminal g.start]⟩] := by
    simp [OrderedMap.values, h.rules]
  simp only [Grammar.Produces, hv, List.mem_append, List.mem_singleton]
  constructor
  · rintro ⟨r, hr | rfl, rfl, rfl⟩
    · exact .inl ⟨r, hr, rfl, rfl⟩
    · exact .inr ⟨rfl, rfl⟩
  · rintro (⟨r, hr, rfl, rfl⟩ | ⟨rfl, rfl⟩)
    · exact ⟨r, .inl hr, rfl, rfl⟩
    · exact ⟨_, .inr rfl, rfl, rfl⟩

theorem start_ne (h : Augments g a) : g.start ≠ a.grammar.start :=
  fun e => h.start_fresh (e ▸ h.inner.start)

/-- The new symbol stands in no body. -/
theorem start_not_mem_body (h : Augments g a) {n : NonterminalId} {body : List Symbol}
    (hp : a.grammar.Produces n body) : .nonterminal a.grammar.start ∉ body := by
  intro hs
  rcases h.produces_iff.mp hp with ⟨r, hr, -, rfl⟩ | ⟨-, rfl⟩
  · exact h.start_fresh (h.inner.bodies r hr _ hs)
  · rw [List.mem_singleton, Symbol.nonterminal.injEq] at hs
    exact h.start_ne hs.symm

theorem nonterminalName_eq (h : Augments g a) {n : NonterminalId}
    (hn : n ∈ g.nonterminals.keys) : a.grammar.nonterminalName n = g.nonterminalName n := by
  obtain ⟨x, hx⟩ := OrderedMap.mem_keys.mp hn
  obtain ⟨name, hnames⟩ := h.nonterminals
  have h1 : g.nonterminals.find? n = some x :=
    OrderedMap.find?_of_mem_entries h.inner.nonterminal_keys hx
  have h2 : a.grammar.nonterminals.find? n = some x :=
    OrderedMap.find?_of_mem_entries h.outer.nonterminal_keys
      (hnames ▸ List.mem_append_left _ hx)
  rw [Grammar.nonterminalName, Grammar.nonterminalName, h1, h2]

/-! ## Derivations -/

theorem expands (h : Augments g a) {u v : List Symbol} (hu : g.Expands u v) :
    a.grammar.Expands u v := by
  cases hu with
  | rule before after hp => exact .rule before after (h.produces_iff.mpr (.inl hp))

theorem derives (h : Augments g a) {u v : List Symbol} (hu : g.Derives u v) :
    a.grammar.Derives u v := by
  induction hu with
  | refl => exact .refl
  | tail _ h1 ih => exact ih.tail (h.expands h1)

theorem expands_inner (h : Augments g a) {u v : List Symbol}
    (hu : .nonterminal a.grammar.start ∉ u) (huv : a.grammar.Expands u v) :
    g.Expands u v ∧ .nonterminal a.grammar.start ∉ v := by
  cases huv with
  | @rule before after n body hp =>
      have hbody := h.start_not_mem_body hp
      simp only [List.mem_append, List.mem_cons, not_or] at hu ⊢
      rcases h.produces_iff.mp hp with hp | ⟨rfl, -⟩
      · exact ⟨.rule before after hp, ⟨hu.1, hbody⟩, hu.2.2⟩
      · exact absurd rfl hu.2.1

theorem derives_inner (h : Augments g a) {u v : List Symbol}
    (hu : .nonterminal a.grammar.start ∉ u) (huv : a.grammar.Derives u v) :
    g.Derives u v ∧ .nonterminal a.grammar.start ∉ v := by
  induction huv with
  | refl => exact ⟨.refl, hu⟩
  | tail _ h1 ih =>
      obtain ⟨h2, h3⟩ := h.expands_inner ih.2 h1
      exact ⟨ih.1.tail h2, h3⟩

theorem derives_iff (h : Augments g a) {u v : List Symbol}
    (hu : .nonterminal a.grammar.start ∉ u) : a.grammar.Derives u v ↔ g.Derives u v :=
  ⟨fun huv => (h.derives_inner hu huv).1, h.derives⟩

theorem nonterminal_not_mem_singleton {n m : NonterminalId} (hn : n ≠ m) :
    .nonterminal m ∉ [Symbol.nonterminal n] := by
  rw [List.mem_singleton, Symbol.nonterminal.injEq]
  exact Ne.symm hn

/-- What derives from the start symbol of the smaller grammar. -/
theorem derives_start_iff (h : Augments g a) {v : List Symbol} :
    a.grammar.Derives [.nonterminal g.start] v ↔ g.Derives [.nonterminal g.start] v :=
  h.derives_iff (nonterminal_not_mem_singleton h.start_ne)

theorem derivesProperly (h : Augments g a) {u v : List Symbol} (hu : g.DerivesProperly u v) :
    a.grammar.DerivesProperly u v := by
  obtain ⟨w, huw, hwv⟩ := Relation.TransGen.head'_iff.mp hu
  exact Relation.TransGen.head' (h.expands huw) (h.derives hwv)

theorem derivesProperly_inner (h : Augments g a) {u v : List Symbol}
    (hu : .nonterminal a.grammar.start ∉ u) (huv : a.grammar.DerivesProperly u v) :
    g.DerivesProperly u v ∧ .nonterminal a.grammar.start ∉ v := by
  obtain ⟨w, huw, hwv⟩ := Relation.TransGen.head'_iff.mp huv
  obtain ⟨huw', hw⟩ := h.expands_inner hu huw
  obtain ⟨hwv', hv⟩ := h.derives_inner hw hwv
  exact ⟨Relation.TransGen.head' huw' hwv', hv⟩

theorem isHiddenLeftRecursive (h : Augments g a) {n : NonterminalId} (hn : n ≠ a.grammar.start)
    (hrec : a.grammar.IsHiddenLeftRecursive n) : g.IsHiddenLeftRecursive n := by
  obtain ⟨before, after, hne, hnull, hd⟩ := hrec
  obtain ⟨hd', hfree⟩ := h.derivesProperly_inner (nonterminal_not_mem_singleton hn) hd
  have hbefore : .nonterminal a.grammar.start ∉ before :=
    fun hmem => hfree (List.mem_append_left _ hmem)
  exact ⟨before, after, hne, (h.derives_inner hbefore hnull).1, hd'⟩

end Augments

/-- The grammar of a text and the larger one, with what a test finds of them. -/
theorem exists_augment (source : String) (p : Grammar → Augmented → Bool)
    (h : ((Grammar.ofSource source).toOption.any fun g => g.augment.toOption.any (p g)) = true) :
    ∃ g a, Grammar.ofSource source = .ok g ∧ g.augment = .ok a ∧ p g a = true := by
  obtain ⟨g, hg, haugment⟩ := Grammar.exists_ofSource source _ h
  cases ha : g.augment with
  | error e =>
      rw [ha] at haugment
      cases haugment
  | ok a =>
      rw [ha] at haugment
      exact ⟨g, a, hg, ha, haugment⟩

end ShiftReduce
