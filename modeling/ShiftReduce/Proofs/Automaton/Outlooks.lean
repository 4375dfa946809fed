import Mathlib.Data.List.Chain
import Mathlib.Data.List.Nodup
import Mathlib.Data.List.Perm.Subperm
import ShiftReduce.Proofs.Automaton.Stacks
import ShiftReduce.Proofs.Grammar.Yields

/-! # What a stack waits for

- `Augmented.Awaits`: the topmost state holds an item with the nonterminal after its
  marker.
- `Awaits.descend`: an awaited nonterminal is awaited for the sake of another one,
  which is awaited further down and derives it behind what stands between.
- `Outlook`: a stack with a nonterminal that it awaits; `Outlook.Serves` is that
  relation between two of them.
- `exists_repeated`: on a high stack one nonterminal is awaited twice, the upper time
  for the sake of the lower one.
-/

namespace ShiftReduce

variable {g : Grammar} {a : Augmented}

namespace Augmented

/-- Whether the nonterminal may come next on the stack. -/
def Awaits (a : Augmented) (ss : List StateId) (n : NonterminalId) : Prop :=
  ∃ s below x, ss = s :: below ∧ a.Holds s x ∧ x.nextSymbol? a.grammar = some (.nonterminal n)

theorem Awaits.mem_body {ss : List StateId} {n : NonterminalId} (h : a.Awaits ss n) :
    ∃ k body, a.grammar.Produces k body ∧ Symbol.nonterminal n ∈ body := by
  obtain ⟨s, below, x, -, -, hx⟩ := h
  exact Item.exists_body_of_next hx

theorem Awaits.declared (ha : Augments g a) {ss : List StateId} {n : NonterminalId}
    (h : a.Awaits ss n) : n ∈ a.grammar.nonterminals.keys := by
  obtain ⟨k, body, hp, hmem⟩ := h.mem_body
  exact hp.allows ha.outer _ hmem

theorem Awaits.ne_start (ha : Augments g a) {ss : List StateId} {n : NonterminalId}
    (h : a.Awaits ss n) : n ≠ a.grammar.start := by
  rintro rfl
  obtain ⟨k, body, hp, hmem⟩ := h.mem_body
  exact ha.start_not_mem_body hp hmem

/-- What a stack waits for comes after its symbols in a string that derives from the start
symbol. -/
theorem Awaits.derives (ha : Augments g a) (hfit : a.grammar.MarkersFit) {ss : List StateId}
    {Xs : List Symbol} (hspells : a.Spells ss Xs) {n : NonterminalId} (h : a.Awaits ss n) :
    ∃ after, g.Derives [.nonterminal g.start] (Xs.reverse ++ .nonterminal n :: after) := by
  obtain ⟨s, below, x, rfl, hx, hn⟩ := h
  obtain ⟨after, hd⟩ := hspells.derives_item ha hfit rfl hx
  obtain ⟨later, hlater⟩ := Item.exists_rest_of_next hn
  rw [hlater, List.append_assoc] at hd
  exact ⟨_, ha.derives_start_iff.mp hd⟩

/-- A string that an item waits for begins, after predictions, with what these wait
for. -/
theorem derives_rest (ha : a.grammar.WellFormed) {x y : Item}
    (hxy : Reaches (predictions a.grammar) x y) :
    ∃ after, a.grammar.Derives (x.rest a.grammar) (y.rest a.grammar ++ after) := by
  have hx : ∃ after, a.grammar.Derives (x.rest a.grammar) ([] ++ x.rest a.grammar ++ after) :=
    ⟨[], by rw [List.append_nil]; exact .refl⟩
  exact Spells.derives_of_reaches hxy hx ha

/-- Every rule but the added one is begun because its head is awaited. -/
theorem awaits_head (ha : Augments g a) {s : StateId} (below : List StateId) {r : RuleId}
    (h : a.Holds s ⟨r, 0⟩) (hr : r ≠ a.acceptRule)
    (hshort : (a.grammar.body r).length < UInt16.size) :
    ∃ rule, a.grammar.rule? r = some rule ∧ a.Awaits (s :: below) rule.head := by
  rcases h.predicted ha rfl hshort with he | ⟨y, hy, hpred⟩
  · exact absurd (congrArg Item.rule he) hr
  · obtain ⟨n, rule, hn, hmem, rfl, -⟩ := mem_predictions.mp hpred
    exact ⟨rule, OrderedMap.find?_of_mem_entries ha.outer.rule_keys hmem, s, below, y, rfl, hy, hn⟩

/-- The item that an awaited nonterminal goes back to, moved over the topmost symbol. -/
theorem exists_kernel (ha : Augments g a) (hfit : a.grammar.MarkersFit) {s s' : StateId}
    {X : Symbol} {n : NonterminalId} {y : Item} (hnext : a.automaton.next? s X = some s')
    (hy : a.Holds s' y) (hn : y.nextSymbol? a.grammar = some (.nonterminal n)) :
    ∃ x, a.Holds s' x ∧ 0 < x.marker.toNat ∧ x.rule ≠ a.acceptRule ∧
      ∃ after, a.grammar.Derives (x.rest a.grammar) (.nonterminal n :: after) := by
  obtain ⟨x, hx, hX, hxy⟩ := Holds.of_next? ha hnext hy
  obtain ⟨u, hu, hadvance⟩ := hx.next? ha hX
  rw [hnext] at hu
  cases hu
  have hmarker : x.advance.marker.toNat = x.marker.toNat + 1 :=
    x.toNat_advance_of_next (hfit.length_body x.rule) hX
  obtain ⟨after, hd⟩ := derives_rest ha.outer hxy
  obtain ⟨later, hlater⟩ := Item.exists_rest_of_next hn
  rw [hlater] at hd
  refine ⟨x.advance, hadvance, hmarker ▸ Nat.succ_pos _, ?_, _, hd⟩
  -- nothing stands after the one symbol of the added rule
  intro hr
  have hnil : x.advance.rest a.grammar = [] := by
    rw [Item.rest, hr, ha.body_accept, hmarker]
    exact List.drop_eq_nil_of_le (Nat.succ_le_succ (Nat.zero_le _))
  rw [hnil] at hd
  cases Grammar.derives_iff_yields.mp hd

theorem Awaits.descend (ha : Augments g a) (hfit : a.grammar.MarkersFit) {ss : List StateId}
    {Xs : List Symbol} (h : a.Spells ss Xs) (hXs : Xs ≠ []) {n : NonterminalId}
    (hn : a.Awaits ss n) :
    ∃ r rule m k after, (r, rule) ∈ a.grammar.rules.entries ∧ 0 < m ∧ m ≤ rule.body.length ∧
      m ≤ Xs.length ∧ a.Awaits (ss.drop m) k ∧
      a.grammar.DerivesProperly [.nonterminal k]
        ((Xs.take m).reverse ++ .nonterminal n :: after) := by
  obtain ⟨s', below', y, rfl, hy, hyn⟩ := hn
  cases h with
  | start => exact absurd rfl hXs
  | @push s _ below X Xs below_spells next =>
      -- the rule that the nonterminal belongs to was begun below, for the sake of its head
      obtain ⟨x, hx, hpos, hr, after, hd⟩ := exists_kernel ha hfit next hy hyn
      obtain ⟨hle, htake, s0, below0, hdrop, -, hholds⟩ :=
        Spells.uncover ha (.push below_spells next) hx
      obtain ⟨rule, hrule, hawaits⟩ := awaits_head ha below0 hholds hr (hfit.length_body x.rule)
      have hmem := OrderedMap.mem_entries_of_find? hrule
      obtain ⟨rule', hrule', hmarker⟩ := hx.isOf ha
      have hsame := OrderedMap.find?_of_mem_entries ha.outer.rule_keys hrule'
      cases hsame.symm.trans hrule
      refine ⟨x.rule, rule, x.marker.toNat, rule.head, after, hmem, hpos, hmarker, hle, ?_, ?_⟩
      · rw [hdrop]
        exact hawaits
      · have hproduces : a.grammar.Produces rule.head
            ((a.grammar.body x.rule).take x.marker.toNat ++ x.rest a.grammar) := by
          rw [Item.rest, List.take_append_drop, body_eq hrule]
          exact Grammar.produces_of_mem hmem
        rw [← htake] at hproduces
        have hcontext := hd.context ((X :: Xs).take x.marker.toNat).reverse []
        rw [List.append_nil, List.append_nil] at hcontext
        exact Relation.TransGen.head' hproduces.expands hcontext

end Augmented

/-! ## Chains of awaited nonterminals -/

/-- A stack, with the symbols that it spells, and a nonterminal. -/
structure Outlook where
  states : List StateId
  symbols : List Symbol
  awaited : NonterminalId

namespace Outlook

structure Valid (a : Augmented) (o : Outlook) : Prop where
  spells : a.Spells o.states o.symbols
  awaits : a.Awaits o.states o.awaited

/-- The nonterminal of the upper stack is awaited for the sake of the lower one's. -/
def Serves (a : Augmented) (upper lower : Outlook) : Prop :=
  ∃ between, between ≠ [] ∧ upper.symbols = between ++ lower.symbols ∧
    ∃ after, a.grammar.DerivesProperly [.nonterminal lower.awaited]
      (between.reverse ++ .nonterminal upper.awaited :: after)

theorem Serves.trans {p q r : Outlook} (h : p.Serves a q) (h' : q.Serves a r) : p.Serves a r := by
  obtain ⟨us, hne, hus, after, hd⟩ := h
  obtain ⟨vs, -, hvs, after', hd'⟩ := h'
  refine ⟨us ++ vs, by simp [hne], by rw [hus, hvs, List.append_assoc], after ++ after', ?_⟩
  have hcontext := Grammar.Derives.context hd.to_reflTransGen vs.reverse after'
  simp only [List.append_assoc, List.cons_append, List.nil_append] at hcontext
  rw [List.reverse_append, List.append_assoc]
  exact hd'.trans_left hcontext

/-- One step down, no further than a body is long. -/
theorem Valid.descend (ha : Augments g a) (hfit : a.grammar.MarkersFit) {bound : Nat}
    (hbound : ∀ r ∈ a.grammar.rules.values, r.body.length ≤ bound) {o : Outlook}
    (h : o.Valid a) (hne : o.symbols ≠ []) :
    ∃ o', o'.Valid a ∧ o.Serves a o' ∧ o.symbols.length ≤ o'.symbols.length + bound := by
  obtain ⟨r, rule, m, k, after, hmem, hpos, hm, hle, hawaits, hd⟩ :=
    h.awaits.descend ha hfit h.spells hne
  refine ⟨⟨o.states.drop m, o.symbols.drop m, k⟩, ⟨h.spells.drop hle, hawaits⟩, ?_, ?_⟩
  · refine ⟨o.symbols.take m, ?_, (List.take_append_drop m o.symbols).symm, after, hd⟩
    intro hnil
    rcases List.take_eq_nil_iff.mp hnil with h0 | h0
    · exact absurd h0 (Nat.ne_of_gt hpos)
    · exact hne h0
  · have hrule := hbound rule (OrderedMap.mem_values.mpr ⟨r, hmem⟩)
    rw [List.length_drop]
    omega

/-- As many steps down as there is room for. -/
theorem Valid.exists_chain (ha : Augments g a) (hfit : a.grammar.MarkersFit) {bound : Nat}
    (hbound : ∀ r ∈ a.grammar.rules.values, r.body.length ≤ bound) {b : Nat} :
    ∀ (n : Nat) {o : Outlook}, o.Valid a → b + (bound + 1) * n ≤ o.symbols.length →
      ∃ os, os.length = n ∧ List.IsChain (Serves a) (o :: os) ∧
        ∀ p ∈ o :: os, p.Valid a ∧ b ≤ p.symbols.length
  | 0, o, h, hroom => ⟨[], rfl, .singleton o, by simpa [h] using hroom⟩
  | n + 1, o, h, hroom => by
      rw [Nat.mul_succ] at hroom
      have hne : o.symbols ≠ [] := by
        intro hnil
        rw [hnil, List.length_nil] at hroom
        omega
      obtain ⟨o', h', hserves, hlen⟩ := h.descend ha hfit hbound hne
      obtain ⟨os, hn, hchain, hall⟩ := h'.exists_chain ha hfit hbound (b := b) n (by omega)
      refine ⟨o' :: os, congrArg Nat.succ hn, .cons_cons hserves hchain, ?_⟩
      intro p hp
      rcases List.mem_cons.mp hp with rfl | hp
      · exact ⟨h, by omega⟩
      · exact hall p hp

/-- With room for more steps than there are nonterminals, one of them recurs. -/
theorem exists_repeated (ha : Augments g a) (hfit : a.grammar.MarkersFit) {bound : Nat}
    (hbound : ∀ r ∈ a.grammar.rules.values, r.body.length ≤ bound) {b : Nat} {o : Outlook}
    (h : o.Valid a) (hroom : b + (bound + 1) * a.grammar.nonterminals.size ≤ o.symbols.length) :
    ∃ upper lower : Outlook, upper.Valid a ∧ lower.Valid a ∧ upper.Serves a lower ∧
      upper.awaited = lower.awaited ∧ b ≤ lower.symbols.length ∧
      upper.symbols <:+ o.symbols := by
  obtain ⟨os, hn, hchain, hall⟩ := h.exists_chain ha hfit hbound _ hroom
  have : IsTrans Outlook (Serves a) := ⟨fun _ _ _ => Serves.trans⟩
  have hpairwise := List.isChain_iff_pairwise.mp hchain
  have hsuffix : ∀ p ∈ o :: os, p.symbols <:+ o.symbols := by
    intro p hp
    rcases List.mem_cons.mp hp with rfl | hp
    · exact List.suffix_refl _
    · obtain ⟨us, -, hus, -⟩ := (List.pairwise_cons.mp hpairwise).1 p hp
      exact ⟨us, hus.symm⟩
  -- otherwise there are more different nonterminals in the chain than are declared
  by_contra hnone
  have hdistinct : ((o :: os).map Outlook.awaited).Nodup := by
    rw [List.Nodup, List.pairwise_map]
    apply hpairwise.imp_of_mem
    intro p q hp hq hserves hsame
    exact hnone ⟨p, q, (hall p hp).1, (hall q hq).1, hserves, hsame, (hall q hq).2, hsuffix p hp⟩
  have hsubset : (o :: os).map Outlook.awaited ⊆ a.grammar.nonterminals.keys := by
    intro n hmem
    obtain ⟨p, hp, rfl⟩ := List.mem_map.mp hmem
    exact (hall p hp).1.awaits.declared ha
  have hlen := (List.subperm_of_subset hdistinct hsubset).length_le
  rw [List.length_map, List.length_cons, hn, OrderedMap.keys, List.length_map] at hlen
  exact Nat.not_succ_le_self _ hlen

end Outlook

end ShiftReduce
