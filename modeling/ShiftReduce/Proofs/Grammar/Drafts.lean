import Mathlib.Data.List.Nodup
import ShiftReduce.Grammar.WellFormed

/-! # Every grammar that is made is well-formed

- `Numbered`: a map whose keys are the numbers stored in its values, all below
  the number to give out next.
- `declareTerminal_isOk_iff`, `declareTerminal_eq_ok`: when a declaration is accepted, and what it
  adds; the same for the other kinds of declarations.
- `Draft.WellFormed`: what holds of every draft; each declaration keeps it.
- `Grammar.IsDefined.wellFormed`: so every defined grammar is well-formed.
-/

namespace ShiftReduce

/-! ## Numbered maps -/

structure Numbered {α : Type} (number : α → Nat) (m : OrderedMap Nat α) (next : Nat) :
    Prop where
  ids : ∀ e ∈ m.entries, e.1 = number e.2
  nodup : m.keys.Nodup
  below : ∀ k ∈ m.keys, k < next

namespace Numbered

variable {α : Type} {number : α → Nat} {m : OrderedMap Nat α} {next : Nat}

theorem fresh (h : Numbered number m next) : next ∉ m.keys :=
  fun hn => Nat.lt_irrefl next (h.below next hn)

theorem entries_insert (h : Numbered number m next) (a : α) :
    (m.insert next a).entries = m.entries ++ [(next, a)] :=
  OrderedMap.entries_insert_of_fresh h.fresh

theorem keys_insert (h : Numbered number m next) (a : α) :
    (m.insert next a).keys = m.keys ++ [next] := by
  simp [OrderedMap.keys, h.entries_insert]

theorem values_insert (h : Numbered number m next) (a : α) :
    (m.insert next a).values = m.values ++ [a] := by
  simp [OrderedMap.values, h.entries_insert]

theorem mem_keys_insert (h : Numbered number m next) {a : α} {k : Nat} :
    k ∈ (m.insert next a).keys ↔ k ∈ m.keys ∨ k = next := by
  rw [h.keys_insert, List.mem_append, List.mem_singleton]

theorem insert (h : Numbered number m next) {a : α} (ha : number a = next) :
    Numbered number (m.insert next a) (next + 1) where
  ids := by
    intro e he
    rw [h.entries_insert, List.mem_append, List.mem_singleton] at he
    rcases he with he | rfl
    · exact h.ids e he
    · exact ha.symm
  nodup := by
    rw [h.keys_insert, List.nodup_append]
    refine ⟨h.nodup, List.nodup_singleton next, ?_⟩
    intro a ha b hb
    rw [List.mem_singleton] at hb
    exact Nat.ne_of_lt (hb ▸ h.below a ha)
  below := by
    intro k hk
    rcases h.mem_keys_insert.mp hk with hk | rfl
    · exact Nat.lt_succ_of_lt (h.below k hk)
    · exact Nat.lt_succ_self k

end Numbered

/-! ## Well-formed drafts -/

theorem exists_of_bind_eq_ok {ε α β : Type} {x : Except ε α} {f : α → Except ε β} {b : β}
    (h : x >>= f = .ok b) : ∃ a, x = .ok a ∧ f a = .ok b := by
  cases x with
  | error e => cases h
  | ok a => exact ⟨a, rfl, h⟩

theorem exists_of_map_eq_ok {ε α β : Type} {f : α → β} {x : Except ε α} {b : β}
    (h : x.map f = .ok b) : ∃ a, x = .ok a ∧ f a = b := by
  cases x with
  | error e => cases h
  | ok a =>
      cases h
      exact ⟨a, rfl, rfl⟩

namespace Draft

structure WellFormed (d : Draft) : Prop where
  terminals : Numbered Terminal.id d.terminals d.nextTerminal
  nonterminals : Numbered Nonterminal.id d.nonterminals d.nextNonterminal
  rules : Numbered Rule.id d.rules d.nextRule
  names : (d.terminals.values.map (·.name) ++ d.nonterminals.values.map (·.name)).Nodup
  terminal_names : ∀ t ∈ d.terminals.values,
    if t.id = endOfInput then t.name = endOfInputName else isValidName t.name = true
  nonterminal_names : ∀ n ∈ d.nonterminals.values, isValidName n.name = true
  end_of_input : d.terminals.find? endOfInput = some ⟨endOfInput, endOfInputName⟩
  start : ∀ n, d.start = some n → n ∈ d.nonterminals.keys
  heads : ∀ r ∈ d.rules.values, r.head ∈ d.nonterminals.keys
  bodies : ∀ r ∈ d.rules.values, ∀ s ∈ r.body, d.allows s = true
  rule_pairs : (d.rules.values.map fun r => (r.head, r.body)).Nodup

theorem wellFormed_empty : empty.WellFormed where
  terminals := ⟨by simp [empty], by simp [empty, OrderedMap.keys],
    by simp [empty, OrderedMap.keys, endOfInput]⟩
  nonterminals := ⟨by simp [empty, EmptyCollection.emptyCollection],
    by simp [empty, OrderedMap.keys, EmptyCollection.emptyCollection],
    by simp [empty, OrderedMap.keys, EmptyCollection.emptyCollection]⟩
  rules := ⟨by simp [empty, EmptyCollection.emptyCollection],
    by simp [empty, OrderedMap.keys, EmptyCollection.emptyCollection],
    by simp [empty, OrderedMap.keys, EmptyCollection.emptyCollection]⟩
  names := by decide
  terminal_names := by decide
  nonterminal_names := by decide
  end_of_input := by decide
  start := by simp [empty]
  heads := by decide
  bodies := by decide
  rule_pairs := by decide

variable {d d' : Draft}

theorem not_mem_names {name : String} (h : d.declares name = false) :
    name ∉ d.terminals.values.map (·.name) ++ d.nonterminals.values.map (·.name) := by
  simp only [declares, Bool.or_eq_false_iff, List.any_eq_false, decide_eq_true_eq] at h
  simp only [List.mem_append, List.mem_map, not_or, not_exists, not_and]
  exact h

/-- Whether a symbol is allowed depends on the declared numbers alone. -/
theorem allows_mono (ht : ∀ t ∈ d.terminals.keys, t ∈ d'.terminals.keys)
    (hn : ∀ n ∈ d.nonterminals.keys, n ∈ d'.nonterminals.keys) {s : Symbol}
    (h : d.allows s = true) : d'.allows s = true := by
  cases s with
  | terminal t =>
      simp only [allows, Bool.and_eq_true, OrderedMap.contains_iff] at h ⊢
      exact ⟨h.1, ht t h.2⟩
  | nonterminal n =>
      simp only [allows, OrderedMap.contains_iff] at h ⊢
      exact hn n h

/-! ## What a declaration does -/

theorem declareTerminal_eq_ok {name : String} {t : TerminalId}
    (h : d.declareTerminal name = .ok (t, d')) :
    isValidName name = true ∧ d.declares name = false ∧ t = d.nextTerminal ∧
      d' = { d with
        terminals := d.terminals.insert d.nextTerminal ⟨d.nextTerminal, name⟩
        nextTerminal := d.nextTerminal + 1 } := by
  unfold declareTerminal at h
  split at h
  · cases h
  · next hv =>
      split at h
      · cases h
      · next hf =>
          split at h
          · cases h
          · cases h
            exact ⟨by simpa using hv, by simpa using hf, rfl, rfl⟩

theorem declareNonterminal_eq_ok {name : String} {n : NonterminalId}
    (h : d.declareNonterminal name = .ok (n, d')) :
    isValidName name = true ∧ d.declares name = false ∧ n = d.nextNonterminal ∧
      d' = { d with
        nonterminals := d.nonterminals.insert d.nextNonterminal ⟨d.nextNonterminal, name⟩
        nextNonterminal := d.nextNonterminal + 1 } := by
  unfold declareNonterminal at h
  split at h
  · cases h
  · next hv =>
      split at h
      · cases h
      · next hf =>
          split at h
          · cases h
          · cases h
            exact ⟨by simpa using hv, by simpa using hf, rfl, rfl⟩

theorem declareTerminal_isOk_iff {name : String} : (∃ p, d.declareTerminal name = .ok p) ↔
    isValidName name = true ∧ ¬ d.declares name = true ∧ d.nextTerminal < idLimit := by
  unfold declareTerminal
  by_cases hvalid : isValidName name = true
  · by_cases hname : d.declares name = true
    · simp [hvalid, hname]
    · by_cases hlimit : d.nextTerminal < idLimit
      · simp [hvalid, hname, hlimit, Nat.not_le.mpr hlimit]
      · simp [hvalid, hname, hlimit, Nat.not_lt.mp hlimit]
  · simp [hvalid]

theorem declareNonterminal_isOk_iff {name : String} :
    (∃ p, d.declareNonterminal name = .ok p) ↔
      isValidName name = true ∧ ¬ d.declares name = true ∧ d.nextNonterminal < idLimit := by
  unfold declareNonterminal
  by_cases hvalid : isValidName name = true
  · by_cases hname : d.declares name = true
    · simp [hvalid, hname]
    · by_cases hlimit : d.nextNonterminal < idLimit
      · simp [hvalid, hname, hlimit, Nat.not_le.mpr hlimit]
      · simp [hvalid, hname, hlimit, Nat.not_lt.mp hlimit]
  · simp [hvalid]

/-- A rule that is accepted is there already, or it is new and goes to the end. -/
theorem addRule_eq_ok {head : NonterminalId} {body : List Symbol} {r : RuleId}
    (h : d.addRule head body = .ok (r, d')) :
    head ∈ d.nonterminals.keys ∧ (∀ s ∈ body, d.allows s = true) ∧
      (((∃ x ∈ d.rules.values, x.id = r ∧ x.head = head ∧ x.body = body) ∧ d' = d) ∨
        ((∀ x ∈ d.rules.values, ¬ (x.head = head ∧ x.body = body)) ∧ r = d.nextRule ∧
          d' = { d with
            rules := d.rules.insert d.nextRule ⟨d.nextRule, head, body⟩
            nextRule := d.nextRule + 1 })) := by
  unfold addRule at h
  split at h
  · cases h
  · next hh =>
      have hhead : head ∈ d.nonterminals.keys :=
        OrderedMap.contains_iff.mp (by simpa using hh)
      split at h
      · cases h
      · next hb =>
          have hbody : ∀ s ∈ body, d.allows s = true := by simpa using hb
          refine ⟨hhead, hbody, ?_⟩
          split at h
          · next x hx =>
              cases h
              have hp := List.find?_some hx
              rw [decide_eq_true_eq] at hp
              exact .inl ⟨⟨x, List.mem_of_find?_eq_some hx, rfl, hp.1, hp.2⟩, rfl⟩
          · next hx =>
              split at h
              · cases h
              · cases h
                refine .inr ⟨?_, rfl, rfl⟩
                intro x hm hp
                have hn := List.find?_eq_none.mp hx x hm
                exact hn (decide_eq_true hp)

/-- A rule of declared symbols is refused only if it is new and there is no number for it. -/
theorem addRule_isOk_iff {head : NonterminalId} {body : List Symbol}
    (hhead : d.allows (.nonterminal head) = true) (hbody : ∀ s ∈ body, d.allows s = true) :
    (∃ p, d.addRule head body = .ok p) ↔
      (∃ x ∈ d.rules.values, x.head = head ∧ x.body = body) ∨ d.nextRule < idLimit := by
  have hcontains : d.nonterminals.contains head = true := hhead
  have hfind : body.find? (fun s => !d.allows s) = none := by
    rw [List.find?_eq_none]
    intro s hs
    simp [hbody s hs]
  simp only [addRule, hcontains, hfind]
  cases hrule : d.existingRule? head body with
  | some x =>
      have hx := List.find?_some hrule
      simp only [decide_eq_true_eq] at hx
      simpa using Or.inl ⟨x, List.mem_of_find?_eq_some hrule, hx⟩
  | none =>
      have hnone : ¬ ∃ x ∈ d.rules.values, x.head = head ∧ x.body = body := by
        rintro ⟨x, hx, hxrule⟩
        simpa [hxrule] using List.find?_eq_none.mp hrule x hx
      by_cases hlimit : d.nextRule < idLimit
      · simp [Nat.not_le.mpr hlimit, hlimit]
      · simp [Nat.not_lt.mp hlimit, hlimit, hnone]

theorem setStart_eq_ok {n : NonterminalId} (h : d.setStart n = .ok d') :
    n ∈ d.nonterminals.keys ∧ d' = { d with start := some n } := by
  unfold setStart at h
  split at h
  · next hn =>
      cases h
      exact ⟨OrderedMap.contains_iff.mp hn, rfl⟩
  · cases h

theorem finish_eq_ok {g : Grammar} (h : d.finish = .ok g) :
    (d.start = some g.start ∨ (d.start = none ∧ d.nonterminals.keys.head? = some g.start)) ∧
      g.terminals = d.terminals ∧ g.nonterminals = d.nonterminals ∧ g.rules = d.rules := by
  unfold finish at h
  split at h
  · next start hs =>
      cases h
      refine ⟨?_, rfl, rfl, rfl⟩
      cases hd : d.start with
      | none =>
          rw [hd] at hs
          exact .inr ⟨rfl, hs⟩
      | some n =>
          rw [hd] at hs
          exact .inl hs
  · cases h

/-! ## Declarations keep a draft well-formed -/

/-- A name that nothing has can be added to the names of either kind. -/
theorem WellFormed.names_terminal (hd : d.WellFormed) {name : String} {t : TerminalId}
    (hf : d.declares name = false) :
    ((d.terminals.values ++ [(⟨t, name⟩ : Terminal)]).map (·.name) ++
      d.nonterminals.values.map (·.name)).Nodup := by
  rw [List.map_append, List.append_assoc]
  exact List.nodup_middle.mpr (List.nodup_cons.mpr ⟨not_mem_names hf, hd.names⟩)

theorem WellFormed.names_nonterminal (hd : d.WellFormed) {name : String}
    {n : NonterminalId} (hf : d.declares name = false) :
    (d.terminals.values.map (·.name) ++
      (d.nonterminals.values ++ [(⟨n, name⟩ : Nonterminal)]).map (·.name)).Nodup := by
  rw [List.map_append, ← List.append_assoc]
  exact List.Nodup.append hd.names (List.nodup_singleton name)
    (List.disjoint_singleton.mpr (not_mem_names hf))

theorem WellFormed.declareTerminal (hd : d.WellFormed) {name : String} {t : TerminalId}
    (h : d.declareTerminal name = .ok (t, d')) : d'.WellFormed := by
  obtain ⟨hv, hf, rfl, rfl⟩ := declareTerminal_eq_ok h
  -- the new number is not that of the end of the input, which has been declared
  have hpos : endOfInput ∈ d.terminals.keys :=
    OrderedMap.mem_keys.mpr ⟨_, OrderedMap.mem_entries_of_find? hd.end_of_input⟩
  have hne : d.nextTerminal ≠ endOfInput := fun h0 => hd.terminals.fresh (h0 ▸ hpos)
  have hvalues := hd.terminals.values_insert ⟨d.nextTerminal, name⟩
  refine { hd with
    terminals := hd.terminals.insert rfl, names := ?_, terminal_names := ?_,
    end_of_input := ?_, bodies := ?_ }
  · rw [hvalues]
    exact hd.names_terminal hf
  · intro t ht
    rw [hvalues, List.mem_append, List.mem_singleton] at ht
    rcases ht with ht | rfl
    · exact hd.terminal_names t ht
    · rw [if_neg hne]
      exact hv
  · rw [OrderedMap.find?_insert, if_neg hne.symm]
    exact hd.end_of_input
  · intro r hr s hs
    have hkeys : ∀ k ∈ d.terminals.keys,
        k ∈ (d.terminals.insert d.nextTerminal ⟨d.nextTerminal, name⟩).keys :=
      fun k hk => hd.terminals.mem_keys_insert.mpr (.inl hk)
    refine allows_mono ?_ ?_ (hd.bodies r hr s hs)
    · exact hkeys
    · exact fun _ hn => hn

theorem WellFormed.declareNonterminal (hd : d.WellFormed) {name : String}
    {n : NonterminalId} (h : d.declareNonterminal name = .ok (n, d')) : d'.WellFormed := by
  obtain ⟨hv, hf, rfl, rfl⟩ := declareNonterminal_eq_ok h
  have hvalues := hd.nonterminals.values_insert ⟨d.nextNonterminal, name⟩
  have hkeys : ∀ k ∈ d.nonterminals.keys,
      k ∈ (d.nonterminals.insert d.nextNonterminal ⟨d.nextNonterminal, name⟩).keys :=
    fun k hk => hd.nonterminals.mem_keys_insert.mpr (.inl hk)
  refine { hd with
    nonterminals := hd.nonterminals.insert rfl, names := ?_, nonterminal_names := ?_,
    start := ?_, heads := ?_, bodies := ?_ }
  · rw [hvalues]
    exact hd.names_nonterminal hf
  · intro n hn
    rw [hvalues, List.mem_append, List.mem_singleton] at hn
    rcases hn with hn | rfl
    · exact hd.nonterminal_names n hn
    · exact hv
  · intro n hn
    exact hkeys n (hd.start n hn)
  · intro r hr
    exact hkeys r.head (hd.heads r hr)
  · intro r hr s hs
    refine allows_mono ?_ ?_ (hd.bodies r hr s hs)
    · exact fun _ ht => ht
    · exact hkeys

theorem WellFormed.addRule (hd : d.WellFormed) {head : NonterminalId} {body : List Symbol}
    {r : RuleId} (h : d.addRule head body = .ok (r, d')) : d'.WellFormed := by
  obtain ⟨hhead, hbody, ⟨_, rfl⟩ | ⟨hnew, rfl, rfl⟩⟩ := addRule_eq_ok h
  · exact hd
  · have hvalues := hd.rules.values_insert ⟨d.nextRule, head, body⟩
    refine { hd with
      rules := hd.rules.insert rfl, heads := ?_, bodies := ?_, rule_pairs := ?_ }
    · intro r hr
      rw [hvalues, List.mem_append, List.mem_singleton] at hr
      rcases hr with hr | rfl
      · exact hd.heads r hr
      · exact hhead
    · intro r hr s hs
      rw [hvalues, List.mem_append, List.mem_singleton] at hr
      rcases hr with hr | rfl
      · exact hd.bodies r hr s hs
      · exact hbody s hs
    · rw [hvalues, List.map_append]
      refine List.Nodup.append hd.rule_pairs (List.nodup_singleton _)
        (List.disjoint_singleton.mpr ?_)
      simp only [List.mem_map, Prod.mk.injEq, not_exists, not_and]
      intro x hx h1 h2
      exact hnew x hx ⟨h1, h2⟩

theorem WellFormed.setStart (hd : d.WellFormed) {n : NonterminalId}
    (h : d.setStart n = .ok d') : d'.WellFormed := by
  obtain ⟨hn, rfl⟩ := setStart_eq_ok h
  refine { hd with start := ?_ }
  intro m hm
  cases hm
  exact hn

theorem WellFormed.declare (hd : d.WellFormed) {c : Declaration} {id : Option Nat}
    (h : d.declare c = .ok (id, d')) : d'.WellFormed := by
  cases c with
  | terminal name =>
      obtain ⟨⟨t, e⟩, he, h⟩ := exists_of_map_eq_ok h
      cases h
      exact hd.declareTerminal he
  | nonterminal name =>
      obtain ⟨⟨n, e⟩, he, h⟩ := exists_of_map_eq_ok h
      cases h
      exact hd.declareNonterminal he
  | rule head body =>
      obtain ⟨⟨r, e⟩, he, h⟩ := exists_of_map_eq_ok h
      cases h
      exact hd.addRule he
  | start n =>
      obtain ⟨e, he, h⟩ := exists_of_map_eq_ok h
      cases h
      exact hd.setStart he
  | fail reason => cases h

theorem WellFormed.perform (hd : d.WellFormed) (c : Declaration) :
    (d.perform c).2.WellFormed := by
  unfold Draft.perform
  split
  · next h => exact hd.declare h
  · exact hd

theorem WellFormed.performAll (hd : d.WellFormed) (cs : List Declaration) :
    (d.performAll cs).2.WellFormed := by
  induction cs generalizing d with
  | nil => exact hd
  | cons c cs ih => exact ih (hd.perform c)

/-! ## From drafts to grammars and back -/

theorem WellFormed.finish (hd : d.WellFormed) {g : Grammar} (h : d.finish = .ok g) :
    g.WellFormed := by
  obtain ⟨hstart, ht, hn, hr⟩ := finish_eq_ok h
  obtain ⟨terminals, nonterminals, rules, start⟩ := g
  subst ht hn hr
  exact {
    terminal_id := hd.terminals.ids
    nonterminal_id := hd.nonterminals.ids
    rule_id := hd.rules.ids
    terminal_keys := hd.terminals.nodup
    nonterminal_keys := hd.nonterminals.nodup
    rule_keys := hd.rules.nodup
    names := hd.names
    terminal_names := hd.terminal_names
    nonterminal_names := hd.nonterminal_names
    end_of_input := hd.end_of_input
    start := by
      rcases hstart with hs | ⟨-, hs⟩
      · exact hd.start start hs
      · exact List.mem_of_mem_head? hs
    heads := hd.heads
    bodies := by
      intro r hr s hs
      have h1 := hd.bodies r hr s hs
      cases s with
      | terminal t =>
          simp only [allows, Bool.and_eq_true, decide_eq_true_eq, OrderedMap.contains_iff] at h1
          exact h1
      | nonterminal n => exact OrderedMap.contains_iff.mp h1
    rules := hd.rule_pairs }

theorem foldl_max_ge (m : Nat) (ids : List Nat) :
    m ≤ ids.foldl (fun m i => max m (i + 1)) m := by
  induction ids generalizing m with
  | nil => exact Nat.le_refl m
  | cons i ids ih => exact Nat.le_trans (Nat.le_max_left m (i + 1)) (ih _)

theorem lt_foldl_max {m k : Nat} {ids : List Nat} (h : k ∈ ids) :
    k < ids.foldl (fun m i => max m (i + 1)) m := by
  induction ids generalizing m with
  | nil => simp at h
  | cons i ids ih =>
      rcases List.mem_cons.mp h with rfl | h
      · exact Nat.lt_of_lt_of_le (Nat.le_max_right m (k + 1)) (foldl_max_ge _ ids)
      · exact ih h

theorem lt_above {k : Nat} {ids : List Nat} (h : k ∈ ids) : k < above ids :=
  lt_foldl_max h

theorem allows_ofGrammar {g : Grammar} {s : Symbol} :
    (ofGrammar g).allows s = true ↔ g.Allows s := by
  cases s with
  | terminal t =>
      simp only [allows, Bool.and_eq_true, decide_eq_true_eq, OrderedMap.contains_iff]
      rfl
  | nonterminal n => exact OrderedMap.contains_iff

theorem wellFormed_ofGrammar {g : Grammar} (hg : g.WellFormed) : (ofGrammar g).WellFormed where
  terminals := ⟨hg.terminal_id, hg.terminal_keys,
    fun _ hk => Nat.lt_of_lt_of_le (lt_above hk) (Nat.le_max_left _ _)⟩
  nonterminals := ⟨hg.nonterminal_id, hg.nonterminal_keys, fun _ hk => lt_above hk⟩
  rules := ⟨hg.rule_id, hg.rule_keys, fun _ hk => lt_above hk⟩
  names := hg.names
  terminal_names := hg.terminal_names
  nonterminal_names := hg.nonterminal_names
  end_of_input := hg.end_of_input
  start := by
    intro n hn
    cases hn
    exact hg.start
  heads := hg.heads
  bodies := fun r hr s hs => allows_ofGrammar.mpr (hg.bodies r hr s hs)
  rule_pairs := hg.rules

end Draft

theorem Grammar.IsDefined.wellFormed {g : Grammar} (hg : g.IsDefined) : g.WellFormed := by
  induction hg with
  | define h => exact (Draft.wellFormed_empty.performAll _).finish h
  | extend _ h ih => exact ((Draft.wellFormed_ofGrammar ih).performAll _).finish h

end ShiftReduce
