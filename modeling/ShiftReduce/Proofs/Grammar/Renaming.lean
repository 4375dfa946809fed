import Mathlib.SetTheory.Cardinal.Arithmetic
import ShiftReduce.Grammar.Derivation
import ShiftReduce.Proofs.Grammar.SymbolNames
import ShiftReduce.Search.Basic

/-! # Grammars that differ in their numbers

Two grammars that agree when they are read by names differ by a permutation of the numbers of
their symbols and rules.

- `exists_perm_of_labels`: numberings of the same labels differ by a permutation.
- `Renaming`: other numbers for the symbols and rules; `symm` takes them back.
- `Renames`: the second grammar is the first one with other numbers.
- `Grammar.SameByNames`: two grammars agree when they are read by names.
- `SameByNames.exists_renames`: such grammars differ in their numbers only.
-/

namespace ShiftReduce

/-! ## Numberings -/

/-- Each label has one number in either numbering. What has no label can be numbered anyhow, so
that a permutation of all numbers takes one numbering to the other. -/
theorem exists_perm_of_labels {L : Type} (p q : ℕ → Option L) (ks : List ℕ)
    (hks : ∀ k x, p k = some x → k ∈ ks)
    (hp : ∀ k k' x, p k = some x → p k' = some x → k = k')
    (hq : ∀ k k' x, q k = some x → q k' = some x → k = k')
    (hpq : ∀ x, (∃ k, p k = some x) ↔ ∃ k, q k = some x) :
    ∃ e : Equiv.Perm ℕ, ∀ k, q (e k) = p k := by
  have hfinite : {k | ∃ x, p k = some x}.Finite := by
    apply (List.finite_toSet ks).subset
    rintro k ⟨x, hx⟩
    exact hks k x hx
  have hmatch : ∀ k : {k | ∃ x, p k = some x}, ∃ k', q k' = p k := by
    rintro ⟨k, x, hx⟩
    obtain ⟨k', hk'⟩ := (hpq x).mp ⟨k, hx⟩
    exact ⟨k', hk'.trans hx.symm⟩
  choose f hf using hmatch
  have hinj : Function.Injective f := by
    intro k k' he
    obtain ⟨x, hx⟩ := k.2
    have hlabels : p k = p k' := by rw [← hf, ← hf, he]
    exact Subtype.ext (hp _ _ x hx (hlabels ▸ hx))
  have hlt : Cardinal.mk {k | ∃ x, p k = some x} < Cardinal.mk ℕ := by
    rw [Cardinal.mk_nat]
    exact hfinite.lt_aleph0
  obtain ⟨e, he⟩ := Cardinal.extend_function_of_lt ⟨f, hinj⟩ hlt ⟨Equiv.refl ℕ⟩
  have hlabelled : ∀ k x, p k = some x → q (e k) = some x := by
    intro k x hx
    have hk : e k = f ⟨k, x, hx⟩ := he ⟨k, x, hx⟩
    rw [hk, hf, hx]
  refine ⟨e, fun k => ?_⟩
  cases hk : p k with
  | some x => exact hlabelled k x hk
  | none =>
      cases hek : q (e k) with
      | none => rfl
      | some x =>
          -- another number has this label in the first numbering, and goes to `e k` as well
          obtain ⟨k', hk'⟩ := (hpq x).mpr ⟨_, hek⟩
          have hsame := e.injective (hq _ _ x hek (hlabelled k' x hk'))
          rw [← hsame, hk] at hk'
          cases hk'

/-- Lists with the same members differ by a permutation of their positions. -/
theorem exists_perm_of_mem_iff {L : Type} {xs ys : List L} (hxs : xs.Nodup) (hys : ys.Nodup)
    (h : ∀ x, x ∈ xs ↔ x ∈ ys) : ∃ e : Equiv.Perm ℕ, ∀ i, ys[e i]? = xs[i]? := by
  apply exists_perm_of_labels (fun i => xs[i]?) (fun i => ys[i]?) (List.range xs.length)
  · intro i x hi
    exact List.mem_range.mpr (List.getElem?_eq_some_iff.mp hi).1
  · intro i j x
    exact position_unique hxs
  · intro i j x
    exact position_unique hys
  · intro x
    rw [← List.mem_iff_getElem?, ← List.mem_iff_getElem?]
    exact h x

theorem eq_map_of_iff {α β : Type} {e : α ≃ β} {p : Option α} {q : Option β}
    (h : ∀ x, q = some (e x) ↔ p = some x) : q = p.map e := by
  cases p with
  | some x => exact (h x).mpr rfl
  | none =>
      cases q with
      | none => rfl
      | some y =>
          have hy := (h (e.symm y)).mp (congrArg some (e.apply_symm_apply y).symm)
          cases hy

namespace OrderedMap

variable {α β L : Type}

theorem exists_label_iff {m : OrderedMap ℕ α} (hm : m.keys.Nodup) {f : α → L} {x : L} :
    (∃ k, (m.find? k).map f = some x) ↔ x ∈ m.values.map f := by
  simp only [Option.map_eq_some_iff, List.mem_map]
  constructor
  · rintro ⟨k, a, hk, rfl⟩
    exact ⟨a, mem_values.mpr ⟨k, mem_entries_of_find? hk⟩, rfl⟩
  · rintro ⟨a, ha, rfl⟩
    obtain ⟨k, hk⟩ := mem_values.mp ha
    exact ⟨k, a, find?_of_mem_entries hm hk, rfl⟩

theorem label_injective {m : OrderedMap ℕ α} {f : α → L} (hf : (m.values.map f).Nodup)
    {k k' : ℕ} {x : L} (hk : (m.find? k).map f = some x) (hk' : (m.find? k').map f = some x) :
    k = k' := by
  obtain ⟨a, ha, rfl⟩ := Option.map_eq_some_iff.mp hk
  obtain ⟨a', ha', heq⟩ := Option.map_eq_some_iff.mp hk'
  rw [values, List.map_map] at hf
  have hentry := List.inj_on_of_nodup_map hf (mem_entries_of_find? ha')
    (mem_entries_of_find? ha) heq
  exact (congrArg Prod.fst hentry).symm

theorem exists_perm {m : OrderedMap ℕ α} {m' : OrderedMap ℕ β} {f : α → L} {f' : β → L}
    (hm : m.keys.Nodup) (hm' : m'.keys.Nodup) (hf : (m.values.map f).Nodup)
    (hf' : (m'.values.map f').Nodup) (h : ∀ x, x ∈ m.values.map f ↔ x ∈ m'.values.map f') :
    ∃ e : Equiv.Perm ℕ, ∀ k, (m'.find? (e k)).map f' = (m.find? k).map f := by
  apply exists_perm_of_labels (fun k => (m.find? k).map f) (fun k => (m'.find? k).map f') m.keys
  · intro k x hk
    obtain ⟨a, ha, -⟩ := Option.map_eq_some_iff.mp hk
    exact mem_keys.mpr ⟨a, mem_entries_of_find? ha⟩
  · intro k k' x hk hk'
    exact label_injective hf hk hk'
  · intro k k' x hk hk'
    exact label_injective hf' hk hk'
  · intro x
    rw [exists_label_iff hm, exists_label_iff hm', h]

end OrderedMap

/-! ## Renamings -/

structure Renaming where
  terminals : Equiv.Perm TerminalId
  nonterminals : Equiv.Perm NonterminalId
  rules : Equiv.Perm RuleId

namespace Renaming

def symm (ρ : Renaming) : Renaming := ⟨ρ.terminals.symm, ρ.nonterminals.symm, ρ.rules.symm⟩

def symbol (ρ : Renaming) : Symbol → Symbol
  | .terminal t => .terminal (ρ.terminals t)
  | .nonterminal n => .nonterminal (ρ.nonterminals n)

def symbols (ρ : Renaming) (ss : List Symbol) : List Symbol := ss.map ρ.symbol

variable (ρ : Renaming)

@[simp] theorem symm_symbol (s : Symbol) : ρ.symm.symbol (ρ.symbol s) = s := by
  cases s <;> simp [symbol, symm]

@[simp] theorem symm_symbols (ss : List Symbol) : ρ.symm.symbols (ρ.symbols ss) = ss := by
  simp [symbols, Function.comp_def]

theorem symbols_injective : Function.Injective ρ.symbols :=
  Function.LeftInverse.injective ρ.symm_symbols

end Renaming

namespace Grammar

theorem terminalName_eq_getD (g : Grammar) (t : TerminalId) :
    g.terminalName t = ((g.terminals.find? t).map (·.name)).getD "" := by
  unfold terminalName
  cases g.terminals.find? t <;> rfl

theorem nonterminalName_eq_getD (g : Grammar) (n : NonterminalId) :
    g.nonterminalName n = ((g.nonterminals.find? n).map (·.name)).getD "" := by
  unfold nonterminalName
  cases g.nonterminals.find? n <;> rfl

end Grammar

/-- The second grammar has the symbols of the first one under other numbers. -/
structure RenamesSymbols (ρ : Renaming) (g h : Grammar) : Prop where
  source : g.WellFormed
  target : h.WellFormed
  terminals : ∀ t, (h.terminals.find? (ρ.terminals t)).map (·.name) =
    (g.terminals.find? t).map (·.name)
  nonterminals : ∀ n, (h.nonterminals.find? (ρ.nonterminals n)).map (·.name) =
    (g.nonterminals.find? n).map (·.name)

/-- It has the same start symbol and the same rules, too. -/
structure Renames (ρ : Renaming) (g h : Grammar) : Prop extends RenamesSymbols ρ g h where
  start : ρ.nonterminals g.start = h.start
  rules : ∀ r, (h.rule? (ρ.rules r)).map (fun x => (x.head, x.body)) =
    (g.rule? r).map fun x => (ρ.nonterminals x.head, ρ.symbols x.body)

namespace RenamesSymbols

variable {ρ : Renaming} {g h : Grammar}

theorem symm (hr : RenamesSymbols ρ g h) : RenamesSymbols ρ.symm h g where
  source := hr.target
  target := hr.source
  terminals := by
    intro t
    have ht := hr.terminals (ρ.terminals.symm t)
    rw [Equiv.apply_symm_apply] at ht
    exact ht.symm
  nonterminals := by
    intro n
    have hn := hr.nonterminals (ρ.nonterminals.symm n)
    rw [Equiv.apply_symm_apply] at hn
    exact hn.symm

theorem exists_terminal (hr : RenamesSymbols ρ g h) {t : TerminalId} {x : Terminal}
    (hx : g.terminals.find? t = some x) :
    ∃ y, h.terminals.find? (ρ.terminals t) = some y ∧ y.name = x.name := by
  have hname := hr.terminals t
  rwa [hx, Option.map_some, Option.map_eq_some_iff] at hname

theorem exists_nonterminal (hr : RenamesSymbols ρ g h) {n : NonterminalId} {x : Nonterminal}
    (hx : g.nonterminals.find? n = some x) :
    ∃ y, h.nonterminals.find? (ρ.nonterminals n) = some y ∧ y.name = x.name := by
  have hname := hr.nonterminals n
  rwa [hx, Option.map_some, Option.map_eq_some_iff] at hname

theorem nonterminalName_eq (hr : RenamesSymbols ρ g h) (n : NonterminalId) :
    h.nonterminalName (ρ.nonterminals n) = g.nonterminalName n := by
  rw [Grammar.nonterminalName_eq_getD, Grammar.nonterminalName_eq_getD, hr.nonterminals]

/-- The name of the end of the input is its own. -/
theorem endOfInput_eq (hr : RenamesSymbols ρ g h) : ρ.terminals endOfInput = endOfInput := by
  obtain ⟨y, hy, hname⟩ := hr.exists_terminal hr.source.end_of_input
  have hnames := (List.nodup_append.mp hr.target.names).1
  have hleft : (h.terminals.find? (ρ.terminals endOfInput)).map (·.name) =
      some endOfInputName := by
    rw [hy]
    exact congrArg some hname
  have hright : (h.terminals.find? endOfInput).map (·.name) = some endOfInputName := by
    rw [hr.target.end_of_input]
    rfl
  exact OrderedMap.label_injective hnames hleft hright

theorem mem_nonterminals (hr : RenamesSymbols ρ g h) {n : NonterminalId}
    (hn : n ∈ g.nonterminals.keys) : ρ.nonterminals n ∈ h.nonterminals.keys := by
  obtain ⟨x, hx⟩ := OrderedMap.mem_keys.mp hn
  obtain ⟨y, hy, -⟩ := hr.exists_nonterminal
    (OrderedMap.find?_of_mem_entries hr.source.nonterminal_keys hx)
  exact OrderedMap.mem_keys.mpr ⟨y, OrderedMap.mem_entries_of_find? hy⟩

theorem allows (hr : RenamesSymbols ρ g h) {s : Symbol} (hs : g.Allows s) :
    h.Allows (ρ.symbol s) := by
  cases s with
  | nonterminal n => exact hr.mem_nonterminals hs
  | terminal t =>
      obtain ⟨hne, ht⟩ := hs
      obtain ⟨x, hx⟩ := OrderedMap.mem_keys.mp ht
      obtain ⟨y, hy, -⟩ := hr.exists_terminal
        (OrderedMap.find?_of_mem_entries hr.source.terminal_keys hx)
      refine ⟨?_, OrderedMap.mem_keys.mpr ⟨y, OrderedMap.mem_entries_of_find? hy⟩⟩
      intro hend
      rw [← hr.endOfInput_eq] at hend
      exact hne (ρ.terminals.injective hend)

theorem symbolName_eq (hr : RenamesSymbols ρ g h) (s : Symbol) :
    h.symbolName (ρ.symbol s) = g.symbolName s := by
  cases s with
  | nonterminal n => exact hr.nonterminalName_eq n
  | terminal t =>
      show h.terminalName (ρ.terminals t) = g.terminalName t
      rw [Grammar.terminalName_eq_getD, Grammar.terminalName_eq_getD, hr.terminals]

end RenamesSymbols

namespace Renames

variable {ρ : Renaming} {g h : Grammar}

theorem symm (hr : Renames ρ g h) : Renames ρ.symm h g where
  toRenamesSymbols := hr.toRenamesSymbols.symm
  start := by
    show ρ.nonterminals.symm h.start = g.start
    rw [Equiv.symm_apply_eq]
    exact hr.start.symm
  rules := by
    intro r
    have hrule := hr.rules (ρ.rules.symm r)
    rw [Equiv.apply_symm_apply] at hrule
    have hback := congrArg (Option.map fun x => (ρ.nonterminals.symm x.1, ρ.symm.symbols x.2)) hrule
    simp only [Option.map_map, Function.comp_def, Equiv.symm_apply_apply,
      Renaming.symm_symbols] at hback
    exact hback.symm

theorem rule?_eq_none (hr : Renames ρ g h) {r : RuleId} (hx : g.rule? r = none) :
    h.rule? (ρ.rules r) = none := by
  have hrule := hr.rules r
  rwa [hx, Option.map_none, Option.map_eq_none_iff] at hrule

theorem exists_rule? (hr : Renames ρ g h) {r : RuleId} {x : Rule} (hx : g.rule? r = some x) :
    ∃ y, h.rule? (ρ.rules r) = some y ∧ y.head = ρ.nonterminals x.head ∧
      y.body = ρ.symbols x.body := by
  have hrule := hr.rules r
  rw [hx, Option.map_some, Option.map_eq_some_iff] at hrule
  obtain ⟨y, hy, heq⟩ := hrule
  obtain ⟨hhead, hbody⟩ := Prod.mk.inj heq
  exact ⟨y, hy, hhead, hbody⟩

end Renames

/-! ## Grammars by names -/

namespace Grammar

/-- The grammars have the same names, the same start symbol and the same rules, in whatever
order. -/
structure SameByNames (g h : Grammar) : Prop where
  start : g.nonterminalName g.start = h.nonterminalName h.start
  terminals : ∀ name, name ∈ g.terminals.values.map (·.name) ↔
    name ∈ h.terminals.values.map (·.name)
  nonterminals : ∀ name, name ∈ g.nonterminals.values.map (·.name) ↔
    name ∈ h.nonterminals.values.map (·.name)
  rules : ∀ rule, rule ∈ g.namedRules ↔ rule ∈ h.namedRules

variable {g h : Grammar}

theorem symbolName_ofGrammar (g : Grammar) : (Draft.ofGrammar g).symbolName = g.symbolName := by
  funext s
  cases s <;> rfl

theorem WellFormed.symbolName_injective (hg : g.WellFormed) {s s' : Symbol} (hs : g.Allows s)
    (hs' : g.Allows s') (h : g.symbolName s = g.symbolName s') : s = s' := by
  apply (Draft.wellFormed_ofGrammar hg).symbolName_injective (Draft.allows_ofGrammar.mpr hs)
    (Draft.allows_ofGrammar.mpr hs')
  rwa [symbolName_ofGrammar]

theorem WellFormed.symbolNames_injective (hg : g.WellFormed) {body body' : List Symbol}
    (hbody : ∀ s ∈ body, g.Allows s) (hbody' : ∀ s ∈ body', g.Allows s)
    (h : body.map g.symbolName = body'.map g.symbolName) : body = body' := by
  apply (Draft.wellFormed_ofGrammar hg).symbolNames_injective
    (fun s hs => Draft.allows_ofGrammar.mpr (hbody s hs))
    (fun s hs => Draft.allows_ofGrammar.mpr (hbody' s hs))
  rwa [symbolName_ofGrammar]

end Grammar

/-- A rule of the second grammar with the names of a rule of the first one is its image. -/
theorem RenamesSymbols.rule_eq {ρ : Renaming} {g h : Grammar} (hr : RenamesSymbols ρ g h)
    {x y : Rule} (hx : x ∈ g.rules.values) (hy : y ∈ h.rules.values)
    (hnames : (h.nonterminalName y.head, y.body.map h.symbolName) =
      (g.nonterminalName x.head, x.body.map g.symbolName)) :
    (y.head, y.body) = (ρ.nonterminals x.head, ρ.symbols x.body) := by
  obtain ⟨hhead, hbody⟩ := Prod.mk.inj hnames
  have hheads : Symbol.nonterminal y.head = ρ.symbol (.nonterminal x.head) := by
    apply hr.target.symbolName_injective
    · exact hr.target.heads y hy
    · exact hr.mem_nonterminals (hr.source.heads x hx)
    · rw [hr.symbolName_eq]
      exact hhead
  have hbodies : y.body = ρ.symbols x.body := by
    apply hr.target.symbolNames_injective (hr.target.bodies y hy)
    · intro s hs
      obtain ⟨s', hs', rfl⟩ := List.mem_map.mp hs
      exact hr.allows (hr.source.bodies x hx s' hs')
    · rw [hbody, Renaming.symbols, List.map_map]
      exact List.map_congr_left fun s _ => (hr.symbolName_eq s).symm
  rw [hbodies, Symbol.nonterminal.inj hheads]

/-- Grammars that agree by their names differ in their numbers only. -/
theorem Grammar.SameByNames.exists_renames {g h : Grammar} (hsame : g.SameByNames h)
    (hg : g.WellFormed) (hh : h.WellFormed) : ∃ ρ, Renames ρ g h := by
  obtain ⟨hgt, hgn, -⟩ := List.nodup_append.mp hg.names
  obtain ⟨hht, hhn, -⟩ := List.nodup_append.mp hh.names
  obtain ⟨et, het⟩ := OrderedMap.exists_perm hg.terminal_keys hh.terminal_keys hgt hht
    hsame.terminals
  obtain ⟨en, hen⟩ := OrderedMap.exists_perm hg.nonterminal_keys hh.nonterminal_keys hgn hhn
    hsame.nonterminals
  have hsymbols : ∀ er, RenamesSymbols ⟨et, en, er⟩ g h := fun _ => ⟨hg, hh, het, hen⟩
  have hs := hsymbols (Equiv.refl ℕ)
  generalize hρ : (⟨et, en, Equiv.refl ℕ⟩ : Renaming) = ρ at hs
  -- the rules of the first grammar with the numbers of the second one
  have hmem : ∀ p, p ∈ g.rules.values.map (fun x => (ρ.nonterminals x.head, ρ.symbols x.body)) ↔
      p ∈ h.rules.values.map fun x => (x.head, x.body) := by
    intro p
    simp only [List.mem_map]
    constructor
    · rintro ⟨x, hx, rfl⟩
      obtain ⟨y, hy, hnames⟩ := List.mem_map.mp
        ((hsame.rules _).mp (List.mem_map.mpr ⟨x, hx, rfl⟩))
      exact ⟨y, hy, hs.rule_eq hx hy hnames⟩
    · rintro ⟨y, hy, rfl⟩
      obtain ⟨x, hx, hnames⟩ := List.mem_map.mp
        ((hsame.rules _).mpr (List.mem_map.mpr ⟨y, hy, rfl⟩))
      exact ⟨x, hx, (hs.rule_eq hx hy hnames.symm).symm⟩
  have hnodup : (g.rules.values.map
      fun x => (ρ.nonterminals x.head, ρ.symbols x.body)).Nodup := by
    have hpairs := hg.rules.map (ρ.nonterminals.injective.prodMap ρ.symbols_injective)
    rwa [List.map_map] at hpairs
  obtain ⟨er, her⟩ := OrderedMap.exists_perm hg.rule_keys hh.rule_keys hnodup hh.rules hmem
  refine ⟨⟨et, en, er⟩, hsymbols er, ?_, ?_⟩
  · have hstart : Symbol.nonterminal h.start = ρ.symbol (.nonterminal g.start) := by
      apply hh.symbolName_injective
      · exact hh.start
      · exact hs.mem_nonterminals hg.start
      · rw [hs.symbolName_eq]
        exact hsame.start.symm
    rw [← hρ] at hstart
    exact (Symbol.nonterminal.inj hstart).symm
  · rw [← hρ] at her
    exact her

end ShiftReduce
