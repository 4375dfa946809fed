import ShiftReduce.Proofs.Grammar.CycleSearches
import ShiftReduce.Proofs.Grammar.Renaming
import ShiftReduce.Proofs.Table.Cells

/-! # Grammars that are refused for their cycles

- `Augments.derivesProperly_iff`: the nonterminals that derive themselves are those of the smaller
  grammar.
- `Augments.cyclicNonterminals_sublist`: they are reported in the order of their declaration.
- `table_cyclic_exact`: a grammar is refused if there is one, whatever its conflicts.
-/

namespace ShiftReduce

variable {g : Grammar} {a : Augmented}

namespace Augments

/-- The new symbol does not derive itself, and it has no part in what the others derive. -/
theorem derivesProperly_iff (h : Augments g a) {n : NonterminalId} :
    a.grammar.DerivesProperly [.nonterminal n] [.nonterminal n] ↔
      g.DerivesProperly [.nonterminal n] [.nonterminal n] := by
  refine ⟨fun hn => ?_, h.derivesProperly⟩
  by_cases hstart : n = a.grammar.start
  · subst hstart
    obtain ⟨body, hfirst, hrest⟩ := Relation.TransGen.head'_iff.mp hn
    have hfree := (h.derives_inner (h.start_not_mem_body hfirst.produces) hrest).2
    exact absurd (List.mem_singleton.mpr rfl) hfree
  · exact (h.derivesProperly_inner (nonterminal_not_mem_singleton hstart) hn).1

theorem mem_cyclicNonterminals_iff (h : Augments g a) {n : NonterminalId} :
    n ∈ cyclicNonterminals a.grammar a.grammar.firstSets ↔
      g.DerivesProperly [.nonterminal n] [.nonterminal n] := by
  rw [mem_cyclicNonterminals_firstSets_iff h.outer, h.derivesProperly_iff]

/-- The new symbol stands behind those of the smaller grammar, and it is not reported. -/
theorem cyclicNonterminals_sublist (h : Augments g a) :
    (cyclicNonterminals a.grammar a.grammar.firstSets).Sublist g.nonterminals.keys := by
  have hstart : a.grammar.start ∉ cyclicNonterminals a.grammar a.grammar.firstSets := by
    rw [h.mem_cyclicNonterminals_iff]
    exact fun hn => h.start_fresh (hn.declared h.inner)
  have hsublist : (cyclicNonterminals a.grammar a.grammar.firstSets).Sublist
      (g.nonterminals.keys ++ [a.grammar.start]) := by
    rw [← h.nonterminal_keys]
    exact List.filter_sublist
  obtain ⟨ns, ms, heq, hns, hms⟩ := List.sublist_append_iff.mp hsublist
  rcases List.sublist_singleton.mp hms with rfl | rfl
  · rwa [heq, List.append_nil]
  · rw [heq] at hstart
    exact absurd (List.mem_append_right ns (List.mem_singleton.mpr rfl)) hstart

theorem cyclicNames_eq (h : Augments g a) : a.cyclicNames =
    (cyclicNonterminals a.grammar a.grammar.firstSets).map g.nonterminalName :=
  List.map_congr_left fun _ hn => h.nonterminalName_eq (h.cyclicNonterminals_sublist.subset hn)

end Augments

theorem Grammar.WellFormed.nodup_map_nonterminalName (hg : g.WellFormed) {ns : List NonterminalId}
    (hns : ns.Sublist g.nonterminals.keys) : (ns.map g.nonterminalName).Nodup := by
  apply List.Nodup.map_on
  · intro n hn m hm hname
    have hsymbols : Symbol.nonterminal n = .nonterminal m :=
      hg.symbolName_injective (hns.subset hn) (hns.subset hm) hname
    exact Symbol.nonterminal.inj hsymbols
  · exact hg.nonterminal_keys.sublist hns

theorem keys_filter_mem_cyclicNonterminals (g : Grammar) (first : FirstSets) :
    (g.nonterminals.keys.filter fun n => decide (n ∈ cyclicNonterminals g first)) =
      cyclicNonterminals g first := by
  apply List.filter_congr
  intro n hn
  rw [Bool.eq_iff_iff, decide_eq_true_eq, cyclicNonterminals, List.mem_filter]
  exact and_iff_right hn

theorem table_eq_cyclic_iff (h : g.augment = .ok a) {policy : ConflictPolicy}
    {names : List String} :
    g.table policy = .error (.cyclic names) ↔ a.cyclicNames ≠ [] ∧ names = a.cyclicNames := by
  by_cases hcyclic : a.cyclicNames = []
  · rw [table_of_cyclicNames_eq_nil h hcyclic]
    split_ifs <;> simp [hcyclic]
  · rw [table_of_cyclicNames_ne_nil h hcyclic]
    simp [hcyclic, eq_comm]

/-- A grammar is refused for its cycles if and only if some nonterminal derives itself, whatever
the policy and the conflicts. The names of all such nonterminals are reported in the order of
their declaration, each once. They are found by a search from each nonterminal that comes to an
end. -/
theorem table_cyclic_exact (hg : g.IsBuilt) (h : g.augment = .ok a) (policy : ConflictPolicy) :
    ((∃ names, g.table policy = .error (.cyclic names)) ↔
      ∃ n, g.DerivesProperly [.nonterminal n] [.nonterminal n]) ∧
    (∀ names, g.table policy = .error (.cyclic names) → names.Nodup ∧
      ∃ ns : List NonterminalId, ns.Sublist g.nonterminals.keys ∧
        (∀ n, n ∈ ns ↔ g.DerivesProperly [.nonterminal n] [.nonterminal n]) ∧
        names = ns.map g.nonterminalName) ∧
    ∃ found : NonterminalId → Bool,
      (∀ n ∈ a.grammar.nonterminals.keys,
        ComesBack (a.grammar.unitEdges a.grammar.firstSets) n []
          ((a.grammar.unitEdges a.grammar.firstSets).ends n).reverse (found n)) ∧
      a.cyclicNames = (a.grammar.nonterminals.keys.filter found).map a.grammar.nonterminalName := by
  have ha := augments_of_augment hg.wellFormed h
  refine ⟨?_, ?_, fun n => decide (n ∈ cyclicNonterminals a.grammar a.grammar.firstSets), ?_, ?_⟩
  · have hnonempty : a.cyclicNames ≠ [] ↔
        ∃ n, n ∈ cyclicNonterminals a.grammar a.grammar.firstSets := by
      rw [Augmented.cyclicNames, Ne, List.map_eq_nil_iff, List.eq_nil_iff_forall_not_mem]
      exact not_forall_not
    calc (∃ names, g.table policy = .error (.cyclic names))
        ↔ a.cyclicNames ≠ [] := by
            simp only [table_eq_cyclic_iff h, exists_and_left, exists_eq, and_true]
      _ ↔ ∃ n, n ∈ cyclicNonterminals a.grammar a.grammar.firstSets := hnonempty
      _ ↔ ∃ n, g.DerivesProperly [.nonterminal n] [.nonterminal n] :=
          exists_congr fun _ => ha.mem_cyclicNonterminals_iff
  · intro names hnames
    obtain ⟨-, rfl⟩ := (table_eq_cyclic_iff h).mp hnames
    rw [ha.cyclicNames_eq]
    exact ⟨hg.wellFormed.nodup_map_nonterminalName ha.cyclicNonterminals_sublist, _,
      ha.cyclicNonterminals_sublist, fun _ => ha.mem_cyclicNonterminals_iff, rfl⟩
  · exact fun n hn => comesBack_unitEdges ha.outer _ hn
  · rw [Augmented.cyclicNames, keys_filter_mem_cyclicNonterminals]

/-- `S` derives itself between two nullable symbols, and `L` and `B` derive one another. `A` does
not derive itself, and there are conflicts besides. -/
theorem table_cyclic_exact_nullable_siblings : ∃ g a,
    Grammar.ofSource "B, S, A, L\na\nS -> A S A | a | L\nA -> a | ε\nL -> B A | A\nB -> L\n" =
      .ok g ∧ g.augment = .ok a ∧ a.table.conflicts ≠ [] ∧
      (∀ policy, g.table policy = .error (.cyclic ["B", "S", "L"])) ∧
      ∀ name, name ∈ ["B", "S", "L"] ↔
        ∃ n, g.DerivesProperly [.nonterminal n] [.nonterminal n] ∧ g.nonterminalName n = name := by
  obtain ⟨g, a, hg, ha, hcheck⟩ := exists_augment
    "B, S, A, L\na\nS -> A S A | a | L\nA -> a | ε\nL -> B A | A\nB -> L\n"
    (fun _ a => decide (a.table.conflicts ≠ [] ∧ a.cyclicNames = ["B", "S", "L"]))
    (by decide +kernel)
  obtain ⟨hconflicts, hnames⟩ := of_decide_eq_true hcheck
  have htable : ∀ policy, g.table policy = .error (.cyclic ["B", "S", "L"]) := fun policy =>
    (table_eq_cyclic_iff ha).mpr ⟨by rw [hnames]; decide, hnames.symm⟩
  obtain ⟨-, ns, -, hns, heq⟩ := (table_cyclic_exact (.inr ⟨_, hg⟩) ha .deny).2.1 _ (htable .deny)
  refine ⟨g, a, hg, ha, hconflicts, htable, fun name => ?_⟩
  simp only [heq, List.mem_map, hns]

end ShiftReduce
