import ShiftReduce.Proofs.Grammar.DeclarationLines

/-! # The names of the symbols of a draft

In a well-formed draft a symbol is told by its name, and so a rule is told by its names.

- `WellFormed.symbolName_injective`, `WellFormed.symbol?_eq_some_iff`: the symbol of a name is the
  one that has it.
- `Lists.mem_names_iff`: the names that have a symbol are those of the content.
- `Draft.Spells`, `WellFormed.mem_namedRules_iff`: bodies and rules by their names.
-/

namespace ShiftReduce

namespace Draft

variable {d : Draft} {c : Content}

theorem WellFormed.allows_terminal (hd : d.WellFormed) {t : Terminal}
    (ht : t ∈ d.terminals.values) (hne : t.id ≠ endOfInput) :
    d.allows (.terminal t.id) = true ∧ d.symbolName (.terminal t.id) = t.name := by
  obtain ⟨k, hk⟩ := OrderedMap.mem_values.mp ht
  have hid : k = t.id := hd.terminals.ids _ hk
  rw [hid] at hk
  constructor
  · simp only [allows, Bool.and_eq_true, decide_eq_true_eq, OrderedMap.contains_iff]
    exact ⟨hne, OrderedMap.mem_keys.mpr ⟨t, hk⟩⟩
  · simp only [symbolName, OrderedMap.find?_of_mem_entries hd.terminals.nodup hk]

theorem WellFormed.allows_nonterminal (hd : d.WellFormed) {n : Nonterminal}
    (hn : n ∈ d.nonterminals.values) :
    d.allows (.nonterminal n.id) = true ∧ d.symbolName (.nonterminal n.id) = n.name := by
  obtain ⟨k, hk⟩ := OrderedMap.mem_values.mp hn
  have hid : k = n.id := hd.nonterminals.ids _ hk
  rw [hid] at hk
  constructor
  · exact OrderedMap.contains_iff.mpr (OrderedMap.mem_keys.mpr ⟨n, hk⟩)
  · simp only [symbolName, OrderedMap.find?_of_mem_entries hd.nonterminals.nodup hk]

/-- Every symbol that is allowed is one of these two. -/
theorem WellFormed.symbol_cases (hd : d.WellFormed) {s : Symbol} (hs : d.allows s = true) :
    (∃ t ∈ d.terminals.values, t.id ≠ endOfInput ∧ s = .terminal t.id) ∨
      ∃ n ∈ d.nonterminals.values, s = .nonterminal n.id := by
  cases s with
  | terminal t =>
      simp only [allows, Bool.and_eq_true, decide_eq_true_eq, OrderedMap.contains_iff] at hs
      obtain ⟨x, hx⟩ := OrderedMap.mem_keys.mp hs.2
      have hid : t = x.id := hd.terminals.ids _ hx
      subst hid
      exact .inl ⟨x, OrderedMap.mem_values.mpr ⟨_, hx⟩, hs.1, rfl⟩
  | nonterminal n =>
      obtain ⟨x, hx⟩ := OrderedMap.mem_keys.mp (OrderedMap.contains_iff.mp hs)
      have hid : n = x.id := hd.nonterminals.ids _ hx
      subst hid
      exact .inr ⟨x, OrderedMap.mem_values.mpr ⟨_, hx⟩, rfl⟩

theorem WellFormed.symbolName_injective (hd : d.WellFormed) {s s' : Symbol}
    (hs : d.allows s = true) (hs' : d.allows s' = true)
    (h : d.symbolName s = d.symbolName s') : s = s' := by
  obtain ⟨hterminals, hnonterminals, hdisjoint⟩ := List.nodup_append.mp hd.names
  rcases hd.symbol_cases hs with ⟨t, ht, hne, rfl⟩ | ⟨n, hn, rfl⟩
  · rw [(hd.allows_terminal ht hne).2] at h
    rcases hd.symbol_cases hs' with ⟨t', ht', hne', rfl⟩ | ⟨n', hn', rfl⟩
    · rw [(hd.allows_terminal ht' hne').2] at h
      rw [List.inj_on_of_nodup_map hterminals ht ht' h]
    · rw [(hd.allows_nonterminal hn').2] at h
      exact absurd h (hdisjoint _ (List.mem_map_of_mem ht) _ (List.mem_map_of_mem hn'))
  · rw [(hd.allows_nonterminal hn).2] at h
    rcases hd.symbol_cases hs' with ⟨t', ht', hne', rfl⟩ | ⟨n', hn', rfl⟩
    · rw [(hd.allows_terminal ht' hne').2] at h
      exact absurd h.symm (hdisjoint _ (List.mem_map_of_mem ht') _ (List.mem_map_of_mem hn))
    · rw [(hd.allows_nonterminal hn').2] at h
      rw [List.inj_on_of_nodup_map hnonterminals hn hn' h]

theorem WellFormed.symbol?_eq_some_iff (hd : d.WellFormed) {name : String} {s : Symbol} :
    d.symbol? name = some s ↔ d.allows s = true ∧ d.symbolName s = name := by
  have hsound : ∀ s', d.symbol? name = some s' → d.allows s' = true ∧ d.symbolName s' = name := by
    intro s' h
    unfold symbol? at h
    split at h
    · next n hn =>
        cases h
        have hname : n.name = name := by simpa using List.find?_some hn
        rw [← hname]
        exact hd.allows_nonterminal (List.mem_of_find?_eq_some hn)
    · split at h
      · next t ht =>
          cases h
          have hname : t.name = name ∧ t.id ≠ endOfInput := by simpa using List.find?_some ht
          rw [← hname.1]
          exact hd.allows_terminal (List.mem_of_find?_eq_some ht) hname.2
      · cases h
  constructor
  · exact hsound s
  · rintro ⟨hs, hname⟩
    cases hfound : d.symbol? name with
    | some s' =>
        obtain ⟨hs', hname'⟩ := hsound s' hfound
        rw [hd.symbolName_injective hs' hs (hname'.trans hname.symm)]
    | none =>
        unfold symbol? at hfound
        split at hfound
        · cases hfound
        · next hnone =>
            split at hfound
            · cases hfound
            · next hnone' =>
                rcases hd.symbol_cases hs with ⟨t, ht, hne, rfl⟩ | ⟨n, hn, rfl⟩
                · rw [(hd.allows_terminal ht hne).2] at hname
                  simpa [hname, hne] using List.find?_eq_none.mp hnone' t ht
                · rw [(hd.allows_nonterminal hn).2] at hname
                  simpa [hname] using List.find?_eq_none.mp hnone n hn

theorem Lists.mem_nonterminals_iff (h : d.Lists c) {name : String} :
    name ∈ c.nonterminals ↔ ∃ n, d.symbol? name = some (.nonterminal n) := by
  rw [← h.nonterminals, List.mem_map]
  constructor
  · rintro ⟨n, hn, rfl⟩
    exact ⟨n.id, h.wellFormed.symbol?_eq_some_iff.mpr (h.wellFormed.allows_nonterminal hn)⟩
  · rintro ⟨n, hn⟩
    obtain ⟨hs, hname⟩ := h.wellFormed.symbol?_eq_some_iff.mp hn
    rcases h.wellFormed.symbol_cases hs with ⟨_, _, _, hx⟩ | ⟨x, hx, hid⟩
    · cases hx
    · rw [hid, (h.wellFormed.allows_nonterminal hx).2] at hname
      exact ⟨x, hx, hname⟩

theorem Lists.mem_terminals_iff (h : d.Lists c) {name : String} :
    name ∈ c.terminals ↔ ∃ t, d.symbol? name = some (.terminal t) := by
  constructor
  · intro hname
    have hvalid := h.loadable.1.names name (List.mem_append_right _ hname)
    obtain ⟨t, ht, rfl⟩ : ∃ t ∈ d.terminals.values, t.name = name := by
      rw [← List.mem_map, h.terminals]
      exact List.mem_cons_of_mem _ hname
    have hne : t.id ≠ endOfInput := by
      intro hid
      have hend := h.wellFormed.terminal_names t ht
      rw [if_pos hid] at hend
      exact ne_endOfInputName hvalid hend
    exact ⟨t.id, h.wellFormed.symbol?_eq_some_iff.mpr (h.wellFormed.allows_terminal ht hne)⟩
  · rintro ⟨t, ht⟩
    obtain ⟨hs, hname⟩ := h.wellFormed.symbol?_eq_some_iff.mp ht
    rcases h.wellFormed.symbol_cases hs with ⟨x, hx, hne, hid⟩ | ⟨_, _, hx⟩
    · rw [hid, (h.wellFormed.allows_terminal hx hne).2] at hname
      have hvalid := h.wellFormed.terminal_names x hx
      rw [if_neg hne, hname] at hvalid
      have hmem : name ∈ endOfInputName :: c.terminals := by
        rw [← h.terminals, List.mem_map]
        exact ⟨x, hx, hname⟩
      exact (List.mem_cons.mp hmem).resolve_left (ne_endOfInputName hvalid)
    · cases hx

theorem Lists.mem_names_iff (h : d.Lists c) {name : String} :
    name ∈ c.nonterminals ++ c.terminals ↔ ∃ s, d.symbol? name = some s := by
  rw [List.mem_append, h.mem_nonterminals_iff, h.mem_terminals_iff]
  constructor
  · rintro (⟨n, hn⟩ | ⟨t, ht⟩)
    · exact ⟨_, hn⟩
    · exact ⟨_, ht⟩
  · rintro ⟨t | n, hs⟩
    · exact .inr ⟨t, hs⟩
    · exact .inl ⟨n, hs⟩

/-! ## Bodies and rules -/

/-- The symbols of the body, all of them allowed, have these names. -/
def Spells (d : Draft) (body : List Symbol) (names : List String) : Prop :=
  body.map d.symbolName = names ∧ ∀ s ∈ body, d.allows s = true

theorem WellFormed.symbolNames_injective (hd : d.WellFormed) {body body' : List Symbol}
    (hbody : ∀ s ∈ body, d.allows s = true) (hbody' : ∀ s ∈ body', d.allows s = true)
    (h : body.map d.symbolName = body'.map d.symbolName) : body = body' := by
  induction body generalizing body' with
  | nil => exact (List.map_eq_nil_iff.mp h.symm).symm
  | cons s body ih =>
      cases body' with
      | nil => cases h
      | cons s' body' =>
          rw [List.map_cons, List.map_cons, List.cons.injEq] at h
          rw [List.forall_mem_cons] at hbody hbody'
          rw [hd.symbolName_injective hbody.1 hbody'.1 h.1, ih hbody.2 hbody'.2 h.2]

/-- A rule is there if and only if one with its names is. -/
theorem WellFormed.mem_namedRules_iff (hd : d.WellFormed) {name : String} {names : List String}
    {head : NonterminalId} {body : List Symbol} (hhead : d.symbol? name = some (.nonterminal head))
    (hbody : d.Spells body names) :
    (name, names) ∈ d.namedRules ↔ ∃ x ∈ d.rules.values, x.head = head ∧ x.body = body := by
  obtain ⟨hallowed, hname⟩ := hd.symbol?_eq_some_iff.mp hhead
  rw [namedRules, List.mem_map]
  constructor
  · rintro ⟨x, hx, heq⟩
    obtain ⟨hxname, hxnames⟩ := Prod.mk.inj heq
    have hxhead : d.allows (.nonterminal x.head) = true :=
      OrderedMap.contains_iff.mpr (hd.heads x hx)
    refine ⟨x, hx, ?_, ?_⟩
    · have hsymbol := hd.symbolName_injective hxhead hallowed (hxname.trans hname.symm)
      cases hsymbol
      rfl
    · exact hd.symbolNames_injective (hd.bodies x hx) hbody.2 (hxnames.trans hbody.1.symm)
  · rintro ⟨x, hx, rfl, rfl⟩
    exact ⟨x, hx, by rw [hname, hbody.1]⟩

end Draft

end ShiftReduce
