import ShiftReduce.Grammar.Format
import ShiftReduce.Grammar.Writing
import ShiftReduce.Proofs.Grammar.Numbering
import ShiftReduce.Proofs.Grammar.Renaming

/-! # The content of a grammar

A grammar that declarations make is told by what a source can say of it.

- `Grammar.content`: the names of a grammar, and its rules word by word.
- `content_isValid`, `content_hasRoom`: a source may say this, so long as it says anything.
- `holds_content`: it describes the grammar, if the start symbol is the first nonterminal.
- `IsDefined.eq_of_holds`: no other grammar is described by it.
-/

namespace ShiftReduce

/-! ## Maps -/

namespace OrderedMap

variable {α β : Type} {m m' : OrderedMap Nat α}

/-- Maps without gaps are equal if what the function tells of their values is. -/
theorem ext_of_map {f : α → β} {n n' : Nat} (hkeys : m.keys = List.range n)
    (hkeys' : m'.keys = List.range n') (hvalues : m.values.map f = m'.values.map f)
    (hinj : ∀ k x y, (k, x) ∈ m.entries → (k, y) ∈ m'.entries → f x = f y → x = y) :
    m = m' := by
  -- there are as many values, and so the same keys
  have hsame : m.keys = m'.keys := by
    have hlength := congrArg List.length hvalues
    rw [List.length_map, List.length_map, length_values, length_values,
      size_of_keys_eq_range hkeys, size_of_keys_eq_range hkeys'] at hlength
    rw [hkeys, hkeys', hlength]
  clear hkeys hkeys'
  obtain ⟨es⟩ := m
  obtain ⟨es'⟩ := m'
  congr 1
  dsimp only [keys, values] at hsame hvalues hinj
  induction es generalizing es' with
  | nil => exact (List.map_eq_nil_iff.mp hsame.symm).symm
  | cons e es ih =>
      cases es' with
      | nil => cases hsame
      | cons e' es' =>
          obtain ⟨k, x⟩ := e
          obtain ⟨k', y⟩ := e'
          simp only [List.map_cons, List.cons.injEq] at hsame hvalues
          obtain ⟨rfl, hsame⟩ := hsame
          have hxy : x = y := hinj k x y List.mem_cons_self List.mem_cons_self hvalues.1
          have hrest : es = es' := by
            apply ih es' hvalues.2 _ hsame
            intro k x y hx hy
            exact hinj k x y (List.mem_cons_of_mem _ hx) (List.mem_cons_of_mem _ hy)
          rw [hxy, hrest]

end OrderedMap

theorem eraseDups_of_nodup {α : Type} [BEq α] [LawfulBEq α] {l : List α} (h : l.Nodup) :
    l.eraseDups = l := by
  induction l with
  | nil => rfl
  | cons a l ih =>
      obtain ⟨ha, hl⟩ := List.nodup_cons.mp h
      have hfilter : l.filter (fun b => !b == a) = l := by
        rw [List.filter_eq_self]
        rintro b hb
        rw [Bool.not_eq_true', beq_eq_false_iff_ne]
        rintro rfl
        exact ha hb
      rw [List.eraseDups_cons, hfilter, ih hl]

namespace Grammar

variable {g h : Grammar} {c : Content}

/-! ## Names -/

theorem WellFormed.isValidName_nonterminalNames (hg : g.WellFormed) {name : String}
    (h : name ∈ g.nonterminalNames) : isValidName name = true := by
  obtain ⟨n, hn, rfl⟩ := List.mem_map.mp h
  exact hg.nonterminal_names n hn

theorem WellFormed.isValidName_terminalNames (hg : g.WellFormed) {name : String}
    (h : name ∈ g.terminalNames) : isValidName name = true := by
  obtain ⟨hname, hne⟩ := List.mem_filter.mp h
  rw [decide_eq_true_eq] at hne
  obtain ⟨t, ht, rfl⟩ := List.mem_map.mp hname
  have hvalid := hg.terminal_names t ht
  split at hvalid
  · exact absurd hvalid hne
  · exact hvalid

theorem WellFormed.isValidName_names (hg : g.WellFormed) {name : String}
    (h : name ∈ g.nonterminalNames ++ g.terminalNames) : isValidName name = true := by
  rcases List.mem_append.mp h with h | h
  · exact hg.isValidName_nonterminalNames h
  · exact hg.isValidName_terminalNames h

theorem WellFormed.nodup_names (hg : g.WellFormed) :
    (g.nonterminalNames ++ g.terminalNames).Nodup := by
  have hsublist : (g.terminalNames ++ g.nonterminalNames).Sublist
      (g.terminals.values.map (·.name) ++ g.nonterminals.values.map (·.name)) :=
    List.filter_sublist.append (List.Sublist.refl _)
  exact List.nodup_append_comm.mp (hg.names.sublist hsublist)

theorem WellFormed.nonterminalName_mem (hg : g.WellFormed) {n : NonterminalId}
    (hn : n ∈ g.nonterminals.keys) : g.nonterminalName n ∈ g.nonterminalNames := by
  obtain ⟨x, hx⟩ := OrderedMap.mem_keys.mp hn
  rw [nonterminalName, OrderedMap.find?_of_mem_entries hg.nonterminal_keys hx]
  exact List.mem_map_of_mem (OrderedMap.mem_values.mpr ⟨n, hx⟩)

theorem WellFormed.symbolName_mem (hg : g.WellFormed) {s : Symbol} (hs : g.Allows s) :
    g.symbolName s ∈ g.nonterminalNames ++ g.terminalNames := by
  rw [List.mem_append]
  cases s with
  | nonterminal n => exact .inl (hg.nonterminalName_mem hs)
  | terminal t =>
      obtain ⟨hne, ht⟩ := hs
      obtain ⟨x, hx⟩ := OrderedMap.mem_keys.mp ht
      have hvalid := hg.terminal_names x (OrderedMap.mem_values.mpr ⟨t, hx⟩)
      have hid : t = x.id := hg.terminal_id _ hx
      rw [← hid, if_neg hne] at hvalid
      have hname : g.terminalName t = x.name := by
        rw [terminalName, OrderedMap.find?_of_mem_entries hg.terminal_keys hx]
      right
      rw [symbolName, hname]
      exact List.mem_filter.mpr ⟨List.mem_map_of_mem (OrderedMap.mem_values.mpr ⟨t, hx⟩),
        decide_eq_true (ne_endOfInputName hvalid)⟩

theorem WellFormed.isValidName_symbolName (hg : g.WellFormed) {s : Symbol} (hs : g.Allows s) :
    isValidName (g.symbolName s) = true :=
  hg.isValidName_names (hg.symbolName_mem hs)

theorem IsDefined.terminals_eq_cons (hg : g.IsDefined) : ∃ es, g.terminals.entries =
    (endOfInput, ⟨endOfInput, endOfInputName⟩) :: es := by
  have hwf := hg.wellFormed
  have hkeys : g.terminals.keys = List.range (Draft.ofGrammar g).nextTerminal := hg.counts.terminals
  obtain ⟨n, hn⟩ : ∃ n, (Draft.ofGrammar g).nextTerminal = n + 1 :=
    Nat.exists_eq_add_of_le' (Draft.wellFormed_ofGrammar hwf).nextTerminal_pos
  rw [hn, List.range_succ_eq_map] at hkeys
  obtain ⟨⟨k, x⟩, es, hentries, hk, -⟩ := List.map_eq_cons_iff.mp hkeys
  obtain rfl : k = endOfInput := hk
  have hx := OrderedMap.find?_of_mem_entries hwf.terminal_keys
    (hentries ▸ List.mem_cons_self : (endOfInput, x) ∈ g.terminals.entries)
  rw [hwf.end_of_input, Option.some.injEq] at hx
  exact ⟨es, hx ▸ hentries⟩

/-- The end of the input is the first terminal, and no other one has its name. -/
theorem IsDefined.map_terminal_names (hg : g.IsDefined) :
    g.terminals.values.map (·.name) = endOfInputName :: g.terminalNames := by
  obtain ⟨es, hentries⟩ := hg.terminals_eq_cons
  have hnodup := (List.nodup_append.mp hg.wellFormed.names).1
  rw [OrderedMap.values, hentries, List.map_cons, List.map_cons, List.nodup_cons] at hnodup
  have hrest : (es.map Prod.snd).map (·.name) = g.terminalNames := by
    rw [terminalNames, OrderedMap.values, hentries, List.map_cons, List.map_cons,
      List.filter_cons_of_neg (by simp)]
    symm
    rw [List.filter_eq_self]
    intro name hname
    rw [decide_eq_true_eq]
    rintro rfl
    exact hnodup.1 hname
  rw [OrderedMap.values, hentries, List.map_cons, List.map_cons, hrest]

/-! ## What a source can say of a grammar -/

/-- The words of an alternative; the empty string has one too. -/
def bodyWords (g : Grammar) (body : List Symbol) : List String :=
  if body.isEmpty then [epsilon] else body.map g.symbolName

def content (g : Grammar) : Content where
  nonterminals := g.nonterminalNames
  terminals := g.terminalNames
  alternatives := g.rules.values.map fun r => (g.nonterminalName r.head, g.bodyWords r.body)

theorem WellFormed.bodyWords_isAlternative (hg : g.WellFormed) {r : Rule}
    (hr : r ∈ g.rules.values) : g.content.IsAlternative (g.bodyWords r.body) := by
  rw [bodyWords]
  split
  · exact ⟨by simp, .inr (by decide)⟩
  · next hne =>
      rw [List.isEmpty_iff] at hne
      refine ⟨fun hnil => hne (List.map_eq_nil_iff.mp hnil), .inl ?_⟩
      intro w hw
      obtain ⟨s, hs, rfl⟩ := List.mem_map.mp hw
      exact hg.symbolName_mem (hg.bodies r hr s hs)

theorem WellFormed.content_isValid (hg : g.WellFormed) : g.content.IsValid where
  names := fun _ => hg.isValidName_names
  distinct := hg.nodup_names
  heads := by
    intro p hp
    obtain ⟨r, hr, rfl⟩ := List.mem_map.mp hp
    exact hg.nonterminalName_mem (hg.heads r hr)
  bodies := by
    intro p hp
    obtain ⟨r, hr, rfl⟩ := List.mem_map.mp hp
    exact hg.bodyWords_isAlternative hr

theorem WellFormed.spelled_bodyWords (hg : g.WellFormed) {r : Rule} (hr : r ∈ g.rules.values) :
    Content.spelled (g.bodyWords r.body) = r.body.map g.symbolName := by
  rw [bodyWords]
  split
  · next hnil =>
      rw [List.isEmpty_iff.mp hnil, List.map_nil]
      decide
  · rw [Content.spelled, List.filter_eq_self]
    intro w hw
    obtain ⟨s, hs, rfl⟩ := List.mem_map.mp hw
    rw [isEpsilon_of_isValidName (hg.isValidName_symbolName (hg.bodies r hr s hs))]
    rfl

theorem WellFormed.rule_eq_of_names (hg : g.WellFormed) {x y : Rule}
    (hx : x.head ∈ g.nonterminals.keys ∧ ∀ s ∈ x.body, g.Allows s)
    (hy : y.head ∈ g.nonterminals.keys ∧ ∀ s ∈ y.body, g.Allows s)
    (hnames : (g.nonterminalName x.head, x.body.map g.symbolName) =
      (g.nonterminalName y.head, y.body.map g.symbolName)) : x.head = y.head ∧ x.body = y.body := by
  obtain ⟨hhead, hbody⟩ := Prod.mk.inj hnames
  have hsymbol : Symbol.nonterminal x.head = .nonterminal y.head :=
    hg.symbolName_injective hx.1 hy.1 hhead
  exact ⟨Symbol.nonterminal.inj hsymbol, hg.symbolNames_injective hx.2 hy.2 hbody⟩

theorem WellFormed.nodup_namedRules (hg : g.WellFormed) : g.namedRules.Nodup := by
  apply List.Nodup.map_on _ hg.rules.of_map
  intro x hx y hy hnames
  obtain ⟨hhead, hbody⟩ := hg.rule_eq_of_names ⟨hg.heads x hx, hg.bodies x hx⟩
    ⟨hg.heads y hy, hg.bodies y hy⟩ hnames
  exact List.inj_on_of_nodup_map hg.rules hx hy (Prod.ext hhead hbody)

theorem WellFormed.content_rules (hg : g.WellFormed) : g.content.rules = g.namedRules := by
  have hspelled : (g.content.alternatives.map fun p => (p.1, Content.spelled p.2)) =
      g.namedRules := by
    rw [content, List.map_map]
    exact List.map_congr_left fun r hr => congrArg (Prod.mk _) (hg.spelled_bodyWords hr)
  rw [Content.rules, hspelled, eraseDups_of_nodup hg.nodup_namedRules]

theorem IsDefined.content_hasRoom (hg : g.IsDefined) : g.content.HasRoom := by
  have hcounts := hg.counts
  have hnonterminals : g.nonterminalNames.length = (Draft.ofGrammar g).nextNonterminal := by
    rw [nonterminalNames, List.length_map, OrderedMap.length_values]
    exact OrderedMap.size_of_keys_eq_range hcounts.nonterminals
  have hterminals : g.terminalNames.length + 1 = (Draft.ofGrammar g).nextTerminal := by
    rw [← List.length_cons, ← hg.map_terminal_names, List.length_map, OrderedMap.length_values]
    exact OrderedMap.size_of_keys_eq_range hcounts.terminals
  have hrules : g.content.rules.length = (Draft.ofGrammar g).nextRule := by
    rw [hg.wellFormed.content_rules, namedRules, List.length_map, OrderedMap.length_values]
    exact OrderedMap.size_of_keys_eq_range hcounts.rules
  exact
    { nonterminals := hnonterminals.trans_le hcounts.nonterminal_room
      terminals := Nat.lt_of_succ_le (hterminals.trans_le hcounts.terminal_room)
      rules := hrules.trans_le hcounts.rule_room }

/-- A source does not say which symbol a grammar begins with, unless it is the first one. -/
theorem IsDefined.holds_content (hg : g.IsDefined)
    (hstart : g.nonterminals.keys.head? = some g.start) : g.Holds g.content where
  nonterminals := rfl
  terminals := hg.map_terminal_names
  start := by
    rw [OrderedMap.keys, List.head?_map, Option.map_eq_some_iff] at hstart
    obtain ⟨⟨n, x⟩, hfirst, rfl⟩ := hstart
    have hname : g.nonterminalName g.start = x.name := by
      rw [nonterminalName, OrderedMap.find?_of_mem_entries hg.wellFormed.nonterminal_keys
        (List.mem_of_head? hfirst)]
    rw [hname, content, nonterminalNames, OrderedMap.values, List.map_map, List.head?_map, hfirst]
    rfl
  rules := hg.wellFormed.content_rules.symm

/-! ## Grammars with the same content -/

theorem IsDefined.eq_of_holds (hg : g.IsDefined) (hh : h.IsDefined) (hgc : g.Holds c)
    (hhc : h.Holds c) : g = h := by
  have hwf := hg.wellFormed
  have hwf' := hh.wellFormed
  have hterminals : g.terminals = h.terminals := by
    apply OrderedMap.ext_of_map hg.counts.terminals hh.counts.terminals
      (hgc.terminals.trans hhc.terminals.symm)
    intro k x y hx hy hname
    have hid : x.id = y.id := (hwf.terminal_id _ hx).symm.trans (hwf'.terminal_id _ hy)
    cases x
    cases y
    exact congrArg₂ Terminal.mk hid hname
  have hnonterminals : g.nonterminals = h.nonterminals := by
    apply OrderedMap.ext_of_map hg.counts.nonterminals hh.counts.nonterminals
      (hgc.nonterminals.trans hhc.nonterminals.symm)
    intro k x y hx hy hname
    have hid : x.id = y.id := (hwf.nonterminal_id _ hx).symm.trans (hwf'.nonterminal_id _ hy)
    cases x
    cases y
    exact congrArg₂ Nonterminal.mk hid hname
  -- the rules are told by names, which mean the same from here on
  obtain ⟨T, N, R, start⟩ := g
  obtain ⟨T', N', R', start'⟩ := h
  obtain rfl : T = T' := hterminals
  obtain rfl : N = N' := hnonterminals
  have hrules : R = R' := by
    apply OrderedMap.ext_of_map hg.counts.rules hh.counts.rules
      (hgc.rules.trans hhc.rules.symm)
    intro k x y hx hy hnames
    have hid : x.id = y.id := (hwf.rule_id _ hx).symm.trans (hwf'.rule_id _ hy)
    have hx' := OrderedMap.mem_values.mpr ⟨k, hx⟩
    have hy' := OrderedMap.mem_values.mpr ⟨k, hy⟩
    obtain ⟨hhead, hbody⟩ := hwf.rule_eq_of_names ⟨hwf.heads x hx', hwf.bodies x hx'⟩
      ⟨hwf'.heads y hy', hwf'.bodies y hy'⟩ hnames
    cases x
    cases y
    rw [Rule.mk.injEq]
    exact ⟨hid, hhead, hbody⟩
  subst hrules
  have hnames := Option.some.inj (hgc.start.symm.trans hhc.start)
  have hstart : Symbol.nonterminal start = .nonterminal start' :=
    hwf.symbolName_injective hwf.start hwf'.start hnames
  rw [Symbol.nonterminal.inj hstart]

end Grammar

end ShiftReduce
