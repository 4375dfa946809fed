import ShiftReduce.Proofs.Grammar.FollowExactness
import ShiftReduce.Proofs.Grammar.FreshNames
import ShiftReduce.Proofs.Grammar.Numbering

/-! # Augmenting a grammar changes nothing that was there

- `Primes`: the search for a free name, without a bound on the primes.
- `Grammar.WellFormed.augment_eq_error_iff`: augmenting fails only for want of numbers.
- `Augments.derives_outer_iff`: what derives from the new start symbol.
- `Augmented.Conserves`, `augment_conserves`: the larger grammar holds the smaller one, describes
  the same strings and has the same FIRST and FOLLOW sets.
-/

namespace ShiftReduce

/-! ## The search for a name -/

/-- Primes are put behind the first name until it is free. -/
inductive Primes (taken : String → Bool) : String → String → Prop where
  | free {name : String} (h : taken name = false) : Primes taken name name
  | prime {name found : String} (h : taken name = true)
      (rest : Primes taken (name ++ "'") found) : Primes taken name found

/-- Names are tried until one is free, if there is one among the first ones. -/
theorem primes_primed {taken : String → Bool} {n : Nat} {name : String}
    (h : taken (primed taken n name) = false) : Primes taken name (primed taken n name) := by
  induction n generalizing name with
  | zero => exact .free h
  | succ n ih =>
      rw [primed] at h ⊢
      split at h
      · next hname =>
          rw [if_pos hname]
          exact .prime hname (ih h)
      · next hname =>
          rw [if_neg hname]
          exact .free h

/-! ## Failures -/

namespace Draft

variable {d : Draft} {e : DefinitionError}

theorem declareNonterminal_eq_error {name : String} (hvalid : isValidName name = true)
    (hfree : d.declares name = false) (h : d.declareNonterminal name = .error e) :
    e = .tooManyEntries := by
  simp only [declareNonterminal, hvalid, hfree, Bool.not_true, Bool.false_eq_true,
    if_false] at h
  split_ifs at h
  cases h
  rfl

theorem addRule_eq_error {head : NonterminalId} {body : List Symbol}
    (hhead : head ∈ d.nonterminals.keys) (hbody : ∀ s ∈ body, d.allows s = true)
    (h : d.addRule head body = .error e) : e = .tooManyEntries := by
  have hcontains : d.nonterminals.contains head = true := OrderedMap.contains_iff.mpr hhead
  have hfind : body.find? (fun s => !d.allows s) = none := by
    rw [List.find?_eq_none]
    intro s hs
    simp [hbody s hs]
  simp only [addRule, hcontains, hfind, Bool.not_true, Bool.false_eq_true, if_false] at h
  split at h
  · cases h
  · split_ifs at h
    cases h
    rfl

end Draft

namespace Grammar

variable {g : Grammar}

/-- The name and the rule are always accepted, and only their numbers can be missing. -/
theorem WellFormed.augment_of_not_hasSpareIds (hg : g.WellFormed) (hfull : ¬ g.HasSpareIds) :
    g.augment = .error .tooManyEntries := by
  cases h1 : (Draft.ofGrammar g).declareNonterminal g.freshStartName with
  | error e =>
      have hfree : (Draft.ofGrammar g).declares g.freshStartName = false :=
        g.declares_freshStartName
      have he := Draft.declareNonterminal_eq_error hg.isValidName_freshStartName hfree h1
      simp only [Grammar.augment, h1, he]
      rfl
  | ok p =>
      obtain ⟨n, d⟩ := p
      obtain ⟨hfresh, hn, hbody, hrules, hnext⟩ := hg.declared_freshStart h1
      have hroom := (Draft.declareNonterminal_isOk_iff.mp ⟨_, h1⟩).2.2
      cases h2 : d.addRule n [.nonterminal g.start] with
      | error e =>
          have he := Draft.addRule_eq_error hn hbody h2
          simp only [Grammar.augment, bind, Except.bind, h1, h2, he]
      | ok q =>
          exfalso
          rcases (Draft.addRule_isOk_iff (OrderedMap.contains_iff.mpr hn) hbody).mp ⟨_, h2⟩ with
            ⟨x, hx, hhead, -⟩ | hrule
          · rw [hrules] at hx
            exact hfresh (hhead ▸ hg.heads x hx)
          · exact hfull ⟨hroom, hnext ▸ hrule⟩

theorem WellFormed.augment_eq_error_iff (hg : g.WellFormed) {e : DefinitionError} :
    g.augment = .error e ↔ e = .tooManyEntries ∧ ¬ g.HasSpareIds := by
  by_cases hids : g.HasSpareIds
  · obtain ⟨a, ha⟩ := hg.exists_augment hids
    simp [ha, hids]
  · rw [hg.augment_of_not_hasSpareIds hids]
    simp [hids, eq_comm]

/-- The numbers of a defined grammar are used up when it has as many entries. -/
theorem IsDefined.not_hasSpareIds_iff (hg : g.IsDefined) :
    ¬ g.HasSpareIds ↔ g.nonterminals.size = idLimit ∨ g.rules.size = idLimit := by
  have hcounts := hg.counts
  have hnonterminals : g.nonterminals.size = (Draft.ofGrammar g).nextNonterminal :=
    OrderedMap.size_of_keys_eq_range hcounts.nonterminals
  have hrules : g.rules.size = (Draft.ofGrammar g).nextRule :=
    OrderedMap.size_of_keys_eq_range hcounts.rules
  have hiff : g.HasSpareIds ↔ (Draft.ofGrammar g).nextNonterminal < idLimit ∧
      (Draft.ofGrammar g).nextRule < idLimit :=
    ⟨fun h => ⟨h.nonterminals, h.rules⟩, fun h => ⟨h.1, h.2⟩⟩
  rw [hiff, not_and_or, Nat.not_lt, Nat.not_lt, hcounts.nonterminal_room.ge_iff_eq,
    hcounts.rule_room.ge_iff_eq, hnonterminals, hrules]

end Grammar

/-! ## What derives from the new start symbol -/

namespace Augments

variable {g : Grammar} {a : Augmented}

theorem derives_outer_iff (h : Augments g a) {v : List Symbol} :
    a.grammar.Derives [.nonterminal a.grammar.start] v ↔
      v = [.nonterminal a.grammar.start] ∨ g.Derives [.nonterminal g.start] v := by
  rw [← h.derives_start_iff]
  constructor
  · intro hv
    rcases Relation.ReflTransGen.cases_head hv with rfl | ⟨u, hfirst, hrest⟩
    · exact .inl rfl
    · right
      rcases h.produces_iff.mp hfirst.produces with hp | ⟨-, rfl⟩
      · exact absurd (hp.declared h.inner) h.start_fresh
      · exact hrest
  · rintro (rfl | hv)
    · exact .refl
    · have haccept : a.grammar.Produces a.grammar.start [.nonterminal g.start] :=
        h.produces_iff.mpr (.inr ⟨rfl, rfl⟩)
      exact haccept.derives.trans hv

theorem isSentence_iff (h : Augments g a) {w : List TerminalId} :
    a.grammar.IsSentence w ↔ g.IsSentence w := by
  have hne : terminalSymbols w ≠ [.nonterminal a.grammar.start] := by
    intro he
    have hmem : .nonterminal a.grammar.start ∈ terminalSymbols w := he ▸ List.mem_singleton_self _
    simp [terminalSymbols] at hmem
  rw [Grammar.IsSentence, h.derives_outer_iff]
  exact or_iff_right hne

/-! ## FIRST and FOLLOW sets -/

theorem ofSymbols_firstSets (h : Augments g a) {ss : List Symbol}
    (hss : .nonterminal a.grammar.start ∉ ss) :
    a.grammar.firstSets.ofSymbols ss = g.firstSets.ofSymbols ss := by
  have hterminals : (a.grammar.firstSets.ofSymbols ss).terminals =
      (g.firstSets.ofSymbols ss).terminals := by
    apply TerminalSet.ext_contains
    intro t
    rw [Bool.eq_iff_iff, contains_ofSymbols_iff h.outer, contains_ofSymbols_iff h.inner]
    simp only [h.derives_iff hss]
  have hnullable : (a.grammar.firstSets.ofSymbols ss).nullable =
      (g.firstSets.ofSymbols ss).nullable := by
    rw [Bool.eq_iff_iff, nullable_ofSymbols_iff h.outer, nullable_ofSymbols_iff h.inner]
    exact h.derives_iff hss
  exact congrArg₂ FirstSet.mk hterminals hnullable

/-- What comes after a nonterminal in a string comes after it already in what the old start symbol
derives, or in what another nonterminal does. -/
theorem precedes_iff (h : Augments g a) {n : NonterminalId} (hn : n ≠ a.grammar.start)
    {t : TerminalId} : a.grammar.Precedes n t ↔ g.Precedes n t := by
  -- a string that holds another symbol is not the new symbol alone
  have hinner : ∀ {before after : List Symbol}, a.grammar.Derives [.nonterminal a.grammar.start]
      (before ++ .nonterminal n :: after) →
      g.Derives [.nonterminal g.start] (before ++ .nonterminal n :: after) := by
    intro before after hd
    refine (h.derives_outer_iff.mp hd).resolve_left fun he => ?_
    have hmem : .nonterminal n ∈ [Symbol.nonterminal a.grammar.start] := by simp [← he]
    rw [List.mem_singleton, Symbol.nonterminal.injEq] at hmem
    exact hn hmem
  constructor
  · intro hp
    cases hp with
    | @within c _ before after hc hd =>
        rw [h.nonterminal_keys, List.mem_append, List.mem_singleton] at hc
        rcases hc with hc | rfl
        · have hne : c ≠ a.grammar.start := by
            rintro rfl
            exact h.start_fresh hc
          exact .within hc ((h.derives_iff (nonterminal_not_mem_singleton hne)).mp hd)
        · exact .within h.inner.start (hinner hd)
    | last hd => exact .last (hinner hd)
  · intro hp
    cases hp with
    | within hc hd =>
        exact .within (h.nonterminal_keys ▸ List.mem_append_left _ hc) (h.derives hd)
    | last hd => exact .last (h.derives_outer_iff.mpr (.inr hd))

theorem get_followSets (h : Augments g a) {n : NonterminalId} (hn : n ≠ a.grammar.start) :
    (a.grammar.followSets a.grammar.firstSets).get n = (g.followSets g.firstSets).get n := by
  apply TerminalSet.ext_contains
  intro t
  rw [Bool.eq_iff_iff, contains_followSets_iff h.outer, contains_followSets_iff h.inner,
    h.precedes_iff hn]

end Augments

/-! ## What augmenting keeps -/

/-- The larger grammar holds the smaller one in its place, and says the same of its symbols. -/
structure Augmented.Conserves (a : Augmented) (g : Grammar) : Prop where
  terminals : a.grammar.terminals = g.terminals
  nonterminals : a.grammar.nonterminals.entries =
    g.nonterminals.entries ++ [(a.grammar.start, ⟨a.grammar.start, g.freshStartName⟩)]
  rules : a.grammar.rules.entries = g.rules.entries ++
    [(a.acceptRule, ⟨a.acceptRule, a.grammar.start, [.nonterminal g.start]⟩)]
  innerStart : a.innerStart = g.start
  start_fresh : a.grammar.start ∉ g.nonterminals.keys
  accept_fresh : a.acceptRule ∉ g.rules.keys
  name_fresh : ∀ name ∈ g.terminals.values.map (·.name) ++ g.nonterminals.values.map (·.name),
    name ≠ g.freshStartName
  start_not_mem_body : ∀ r ∈ a.grammar.rules.values, .nonterminal a.grammar.start ∉ r.body
  sentences : ∀ w, a.grammar.IsSentence w ↔ g.IsSentence w
  first : ∀ ss, .nonterminal a.grammar.start ∉ ss →
    a.grammar.firstSets.ofSymbols ss = g.firstSets.ofSymbols ss
  follow : ∀ n, n ≠ a.grammar.start →
    (a.grammar.followSets a.grammar.firstSets).get n = (g.followSets g.firstSets).get n

theorem Grammar.WellFormed.conserves {g : Grammar} {a : Augmented} (hg : g.WellFormed)
    (ha : g.augment = .ok a) : a.Conserves g := by
  have h := augments_of_augment hg ha
  exact
    { terminals := h.terminals
      nonterminals := nonterminals_of_augment hg ha
      rules := h.rules
      innerStart := h.innerStart
      start_fresh := h.start_fresh
      accept_fresh := h.accept_fresh
      name_fresh := by
        rintro name hname rfl
        rw [← Grammar.declares_iff, g.declares_freshStartName] at hname
        cases hname
      start_not_mem_body := fun r hr => h.start_not_mem_body ⟨r, hr, rfl, rfl⟩
      sentences := fun _ => h.isSentence_iff
      first := fun _ => h.ofSymbols_firstSets
      follow := fun _ => h.get_followSets }

/-- A free name is found for the new symbol, and augmenting fails only if there is no number left
for it or for its rule. Otherwise that symbol and that rule are all that is added, and what the
grammar describes stays as it was, with its FIRST and FOLLOW sets. -/
theorem augment_conserves {g : Grammar} (hg : g.IsBuilt) :
    Primes g.declares (g.nonterminalName g.start ++ "'") g.freshStartName ∧
    (∀ e, g.augment = .error e ↔
      e = .tooManyEntries ∧ (g.nonterminals.size = idLimit ∨ g.rules.size = idLimit)) ∧
    ∀ a, g.augment = .ok a → a.Conserves g := by
  refine ⟨primes_primed g.declares_freshStartName, fun e => ?_, fun a => hg.wellFormed.conserves⟩
  rw [hg.wellFormed.augment_eq_error_iff, hg.isDefined.not_hasSpareIds_iff]

/-- One and two primes are taken, by a nonterminal and by a terminal. -/
theorem augment_conserves_primed : ∃ g a,
    Grammar.ofSource "S, S'\na, S''\nS -> S' a | ε\nS' -> S | S''\n" = .ok g ∧
      g.augment = .ok a ∧ Primes g.declares "S'" "S'''" ∧
      a.grammar.nonterminalName a.grammar.start = "S'''" ∧ a.Conserves g := by
  obtain ⟨g, a, hg, ha, hcheck⟩ := exists_augment "S, S'\na, S''\nS -> S' a | ε\nS' -> S | S''\n"
    (fun g a => decide (g.nonterminalName g.start = "S" ∧ g.freshStartName = "S'''" ∧
      a.grammar.nonterminalName a.grammar.start = "S'''")) (by decide +kernel)
  obtain ⟨hstart, hfresh, hname⟩ := of_decide_eq_true hcheck
  obtain ⟨hprimes, -, hconserves⟩ := augment_conserves (.inr ⟨_, hg⟩)
  rw [hstart, hfresh] at hprimes
  exact ⟨g, a, hg, ha, hprimes, hname, hconserves a ha⟩

end ShiftReduce
