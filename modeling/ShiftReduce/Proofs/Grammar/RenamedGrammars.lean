import ShiftReduce.Proofs.Grammar.Augmentation
import ShiftReduce.Proofs.Grammar.FollowExactness
import ShiftReduce.Proofs.Grammar.FreshNames
import ShiftReduce.Proofs.Grammar.Renaming

/-! # What does not depend on the numbers of a grammar

- `Renames.derives`, `Renames.precedes`: derivations and what comes after a nonterminal.
- `SameByNames.augment`: augmenting adds the same symbol and the same rule to grammars that agree
  by their names.
-/

namespace ShiftReduce

namespace Renames

variable {ρ : Renaming} {g h : Grammar}

/-! ## Derivations -/

theorem produces (hr : Renames ρ g h) {n : NonterminalId} {body : List Symbol}
    (hp : g.Produces n body) : h.Produces (ρ.nonterminals n) (ρ.symbols body) := by
  obtain ⟨x, hx, rfl, rfl⟩ := hp
  obtain ⟨r, hrule⟩ := OrderedMap.mem_values.mp hx
  obtain ⟨y, hy, hhead, hbody⟩ := hr.exists_rule?
    (OrderedMap.find?_of_mem_entries hr.source.rule_keys hrule)
  rw [← hhead, ← hbody]
  exact Grammar.produces_of_rule? hy

theorem expands (hr : Renames ρ g h) {u v : List Symbol} (hu : g.Expands u v) :
    h.Expands (ρ.symbols u) (ρ.symbols v) := by
  cases hu with
  | rule before after hp =>
      have himage := Grammar.Expands.rule (ρ.symbols before) (ρ.symbols after) (hr.produces hp)
      simpa [Renaming.symbols, Renaming.symbol] using himage

theorem derives (hr : Renames ρ g h) {u v : List Symbol} (hu : g.Derives u v) :
    h.Derives (ρ.symbols u) (ρ.symbols v) := by
  induction hu with
  | refl => exact .refl
  | tail _ hstep ih => exact ih.tail (hr.expands hstep)

theorem derivesProperly (hr : Renames ρ g h) {u v : List Symbol} (hu : g.DerivesProperly u v) :
    h.DerivesProperly (ρ.symbols u) (ρ.symbols v) := by
  obtain ⟨w, hstep, hrest⟩ := Relation.TransGen.head'_iff.mp hu
  exact Relation.TransGen.head' (hr.expands hstep) (hr.derives hrest)

theorem precedes (hr : Renames ρ g h) {n : NonterminalId} {t : TerminalId}
    (hp : g.Precedes n t) : h.Precedes (ρ.nonterminals n) (ρ.terminals t) := by
  cases hp with
  | within declared derives =>
      have himage := hr.derives derives
      simp only [Renaming.symbols, List.map_append, List.map_cons, Renaming.symbol] at himage
      exact .within (hr.mem_nonterminals declared) himage
  | last derives =>
      have himage := hr.derives derives
      simp only [Renaming.symbols, List.map_append, List.map_cons, List.map_nil,
        Renaming.symbol, hr.start] at himage
      rw [hr.endOfInput_eq]
      exact .last himage

end Renames

/-! ## Augmented grammars -/

namespace Grammar

variable {g h : Grammar} {a b : Augmented}

theorem SameByNames.freshStartName_eq (hsame : g.SameByNames h) (hg : g.WellFormed)
    (hh : h.WellFormed) : g.freshStartName = h.freshStartName := by
  obtain ⟨hgt, hgn, -⟩ := List.nodup_append.mp hg.names
  obtain ⟨hht, hhn, -⟩ := List.nodup_append.mp hh.names
  have hterminals : g.terminals.size = h.terminals.size := by
    have hlength := ((List.perm_ext_iff_of_nodup hgt hht).mpr hsame.terminals).length_eq
    rwa [List.length_map, List.length_map, OrderedMap.length_values,
      OrderedMap.length_values] at hlength
  have hnonterminals : g.nonterminals.size = h.nonterminals.size := by
    have hlength := ((List.perm_ext_iff_of_nodup hgn hhn).mpr hsame.nonterminals).length_eq
    rwa [List.length_map, List.length_map, OrderedMap.length_values,
      OrderedMap.length_values] at hlength
  have hdeclares : g.declares = h.declares := by
    funext name
    rw [Bool.eq_iff_iff, declares_iff, declares_iff, List.mem_append, List.mem_append,
      hsame.terminals, hsame.nonterminals]
  rw [freshStartName, freshStartName, hterminals, hnonterminals, hdeclares, hsame.start]

theorem nonterminalName_start_of_augment (hg : g.WellFormed) (ha : g.augment = .ok a) :
    a.grammar.nonterminalName a.grammar.start = g.freshStartName := by
  have hfind := OrderedMap.find?_of_mem_entries
    (augments_of_augment hg ha).outer.nonterminal_keys
    (nonterminals_of_augment hg ha ▸ List.mem_append_right _ (List.mem_singleton.mpr rfl))
  rw [nonterminalName, hfind]

theorem symbolName_of_augments (ha : Augments g a) {s : Symbol} (hs : g.Allows s) :
    a.grammar.symbolName s = g.symbolName s := by
  cases s with
  | terminal t =>
      show a.grammar.terminalName t = g.terminalName t
      rw [terminalName, terminalName, ha.terminals]
  | nonterminal n => exact ha.nonterminalName_eq hs

theorem namedRules_of_augment (hg : g.WellFormed) (h : g.augment = .ok a) :
    a.grammar.namedRules = g.namedRules ++ [(g.freshStartName, [g.nonterminalName g.start])] := by
  have ha := augments_of_augment hg h
  have hvalues : a.grammar.rules.values = g.rules.values ++
      [⟨a.acceptRule, a.grammar.start, [.nonterminal g.start]⟩] := by
    simp [OrderedMap.values, ha.rules]
  rw [namedRules, namedRules, hvalues, List.map_append]
  congr 1
  · apply List.map_congr_left
    intro r hr
    rw [ha.nonterminalName_eq (hg.heads r hr)]
    congr 1
    exact List.map_congr_left fun s hs => symbolName_of_augments ha (hg.bodies r hr s hs)
  · rw [List.map_singleton, nonterminalName_start_of_augment hg h, List.map_singleton]
    have hstart : a.grammar.symbolName (.nonterminal g.start) = g.nonterminalName g.start :=
      ha.nonterminalName_eq hg.start
    rw [hstart]

theorem SameByNames.augment (hsame : g.SameByNames h) (hg : g.WellFormed) (hh : h.WellFormed)
    (ha : g.augment = .ok a) (hb : h.augment = .ok b) : a.grammar.SameByNames b.grammar := by
  have hfresh := hsame.freshStartName_eq hg hh
  constructor
  · rw [nonterminalName_start_of_augment hg ha, nonterminalName_start_of_augment hh hb, hfresh]
  · rw [(augments_of_augment hg ha).terminals, (augments_of_augment hh hb).terminals]
    exact hsame.terminals
  · intro name
    have hn := hsame.nonterminals name
    simp only [OrderedMap.values, nonterminals_of_augment hg ha, nonterminals_of_augment hh hb,
      List.map_append, List.mem_append, List.map_cons, List.map_nil, hfresh] at hn ⊢
    rw [hn]
  · intro rule
    rw [namedRules_of_augment hg ha, namedRules_of_augment hh hb, List.mem_append,
      List.mem_append, hsame.rules, hfresh, hsame.start]

end Grammar

end ShiftReduce
