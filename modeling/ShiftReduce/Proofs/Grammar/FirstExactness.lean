import ShiftReduce.Proofs.Grammar.FirstSets
import ShiftReduce.Proofs.Grammar.Sources

/-! # FIRST sets hold nothing else

What the passes put into a FIRST set can indeed come first, so with what they do not
miss the sets are exact.

- `mem_leadingSymbols`: what stands before a leading symbol is nullable.
- `HoldsLeads`: the invariant of the passes; each terminal in a set leads its
  nonterminal.
- `leads_of_contains_ofSymbols`: the same for strings.
- `firstSets_exact`: both searches come to an end, and what they find is what
  derivations say.
-/

namespace ShiftReduce

variable {g : Grammar}

/-! ## Leading symbols -/

theorem mem_leadingSymbols {ns : List NonterminalId} {s : Symbol} {ss : List Symbol}
    (h : s ∈ leadingSymbols ns ss) :
    ∃ before after, ss = before ++ s :: after ∧ before.all (isNullableIn ns) = true := by
  induction ss with
  | nil => cases h
  | cons u us ih =>
      rw [leadingSymbols] at h
      split at h
      · next hu =>
          rcases List.mem_cons.mp h with rfl | h
          · exact ⟨[], us, rfl, rfl⟩
          · obtain ⟨before, after, rfl, hbefore⟩ := ih h
            refine ⟨u :: before, after, rfl, ?_⟩
            rw [List.all_cons, hu, hbefore]
            rfl
      · cases List.mem_singleton.mp h
        exact ⟨[], us, rfl, rfl⟩

/-- What leads a leading symbol of a body leads the head. -/
theorem leads_head (hg : g.WellFormed) {r : Rule} (hr : r ∈ g.rules.values) {s : Symbol}
    (hs : s ∈ leadingSymbols (nullableNonterminals g) r.body) {t : TerminalId}
    (h : g.Leads t s) : g.Leads t (.nonterminal r.head) := by
  obtain ⟨before, after, hbody, hbefore⟩ := mem_leadingSymbols hs
  exact .rule ⟨r, hr, rfl, hbody⟩ ((nullableIds_nullableNonterminals hg).isNullable hbefore) h

/-! ## The passes -/

/-- Every terminal in the set of a nonterminal can be the first of what derives from it. -/
def HoldsLeads (g : Grammar) (m : TerminalSets) : Prop :=
  ∀ n t, (m.get n).contains t = true → g.Leads t (.nonterminal n)

theorem HoldsLeads.grow {m : TerminalSets} (h : HoldsLeads g m) {n : NonterminalId}
    {s : TerminalSet} (hs : ∀ t, s.contains t = true → g.Leads t (.nonterminal n)) :
    HoldsLeads g (m.grow n s) := by
  intro k t ht
  rcases TerminalSets.contains_grow_iff.mp ht with hold | ⟨rfl, hnew⟩
  · exact h k t hold
  · exact hs t hnew

theorem holdsLeads_firstSeed (hg : g.WellFormed) :
    HoldsLeads g (firstSeed g (nullableNonterminals g)) := by
  refine foldl_kept ?_ ?_
  · intro m r hr hm
    apply hm.grow
    intro t ht
    rw [TerminalSet.contains_ofList, mem_ruleTerminals] at ht
    exact leads_head hg hr ht .here
  · intro n t ht
    rw [TerminalSets.contains_const hg.nonterminal_keys] at ht
    cases ht

theorem HoldsLeads.inclusion (hg : g.WellFormed) {m : TerminalSets} (h : HoldsLeads g m)
    {c : Inclusion} (hc : c ∈ allInclusions g) :
    HoldsLeads g (m.grow c.larger (m.get c.smaller)) := by
  obtain ⟨r, hr, hc⟩ := List.mem_flatMap.mp hc
  obtain ⟨hlarger, -, hsmaller⟩ := mem_ruleInclusions.mp hc
  apply h.grow
  intro t ht
  rw [hlarger]
  exact leads_head hg hr hsmaller (h c.smaller t ht)

theorem holdsLeads_firstSets (hg : g.WellFormed) : HoldsLeads g g.firstSets.sets :=
  (settles_firstSets hg).kept
    (fun _ hm => foldl_kept (fun _ _ hc hm => hm.inclusion hg hc) hm) (holdsLeads_firstSeed hg)

/-! ## Strings of symbols -/

theorem leads_of_contains_terminalsOf (hg : g.WellFormed) {s : Symbol} {t : TerminalId}
    (h : (g.firstSets.terminalsOf s).contains t = true) : g.Leads t s := by
  cases s with
  | terminal u =>
      rw [FirstSets.terminalsOf, TerminalSet.contains_insert, TerminalSet.contains_empty,
        Bool.false_or, decide_eq_true_eq] at h
      subst h
      exact .here
  | nonterminal n => exact holdsLeads_firstSets hg n t h

/-- A terminal in the FIRST set of a string leads one of its symbols, and what stands before
that symbol vanishes. -/
theorem leads_of_contains_ofSymbols (hg : g.WellFormed) {ss : List Symbol} {t : TerminalId}
    (h : (g.firstSets.ofSymbols ss).terminals.contains t = true) :
    ∃ before s after, ss = before ++ s :: after ∧ g.IsNullable before ∧ g.Leads t s := by
  obtain ⟨s, hs, hst⟩ := FirstSets.contains_ofSymbols.mp h
  obtain ⟨before, after, rfl, hbefore⟩ := mem_leadingSymbols hs
  exact ⟨before, s, after, rfl, (nullableIds_nullableNonterminals hg).isNullable hbefore,
    leads_of_contains_terminalsOf hg hst⟩

theorem nullable_ofSymbols_iff (hg : g.WellFormed) {ss : List Symbol} :
    (g.firstSets.ofSymbols ss).nullable = true ↔ g.IsNullable ss := by
  rw [FirstSets.nullable_ofSymbols]
  exact ⟨(nullableIds_nullableNonterminals hg).isNullable, isNullable_of_derives hg⟩

theorem contains_ofSymbols_iff (hg : g.WellFormed) {ss : List Symbol} {t : TerminalId} :
    (g.firstSets.ofSymbols ss).terminals.contains t = true ↔
      ∃ after, g.Derives ss (.terminal t :: after) := by
  constructor
  · intro h
    obtain ⟨before, s, after, rfl, hnull, hleads⟩ := leads_of_contains_ofSymbols hg h
    obtain ⟨rest, hd⟩ := hleads.derives
    have hrefl : g.Derives after after := .refl
    exact ⟨rest ++ after, hnull.append (hd.append hrefl)⟩
  · rintro ⟨after, hd⟩
    exact ofSymbols_of_derives hg hd (ofSymbols_terminal g.firstSets t after)

/-! ## Exactness -/

/-- The searches for nullable nonterminals and for FIRST sets come to an end by themselves.
For every string of symbols they tell whether it derives the empty string, and which
terminals come first in the strings that it derives. -/
theorem firstSets_exact (hg : g.IsBuilt) :
    (∃ k, Settles (nullablePass g) (nullableSeed g) g.firstSets.nullable k) ∧
    Settles (firstPass (g.rules.values.flatMap (ruleInclusions g.firstSets.nullable)))
      (firstSeed g g.firstSets.nullable) g.firstSets.sets g.firstSets.rounds ∧
    ∀ ss, ((g.firstSets.ofSymbols ss).nullable = true ↔ g.Derives ss []) ∧
      ∀ t, (g.firstSets.ofSymbols ss).terminals.contains t = true ↔
        ∃ after, g.Derives ss (.terminal t :: after) := by
  have hwf := hg.wellFormed
  refine ⟨settles_nullableNonterminals hwf, settles_firstSets hwf, fun ss => ⟨?_, fun t => ?_⟩⟩
  · exact nullable_ofSymbols_iff hwf
  · exact contains_ofSymbols_iff hwf

/-- The nonterminal `B` derives itself, `A` and `B` are left recursive behind each other, and
`C` derives no string of terminals. -/
theorem firstSets_exact_cyclic : ∃ g,
    Grammar.ofSource "A, B, C\na, b\nA -> B A a | ε\nB -> A b | B\nC -> C a | A C\n" = .ok g ∧
      g.Derives [.nonterminal 0, .nonterminal 0] [] ∧ ¬ g.Derives [.nonterminal 1] [] ∧
      (∃ after, g.Derives [.nonterminal 2, .nonterminal 1] (.terminal 2 :: after)) ∧
      ¬ ∃ after, g.Derives [.nonterminal 2, .nonterminal 1] (.terminal 1 :: after) := by
  obtain ⟨g, hg, hcheck⟩ := Grammar.exists_ofSource
    "A, B, C\na, b\nA -> B A a | ε\nB -> A b | B\nC -> C a | A C\n"
    (fun g => decide ((g.firstSets.ofSymbols [.nonterminal 0, .nonterminal 0]).nullable = true ∧
      ¬ (g.firstSets.ofSymbols [.nonterminal 1]).nullable = true ∧
      (g.firstSets.ofSymbols [.nonterminal 2, .nonterminal 1]).terminals.contains 2 = true ∧
      ¬ (g.firstSets.ofSymbols [.nonterminal 2, .nonterminal 1]).terminals.contains 1 = true))
    (by decide +kernel)
  obtain ⟨hnull, hsolid, hfirst, hother⟩ := of_decide_eq_true hcheck
  obtain ⟨-, -, hexact⟩ := firstSets_exact (.inr ⟨_, hg⟩)
  exact ⟨g, hg, (hexact _).1.mp hnull, mt (hexact _).1.mpr hsolid, ((hexact _).2 2).mp hfirst,
    mt ((hexact _).2 1).mpr hother⟩

end ShiftReduce
