import Mathlib.Data.Finset.Card
import Mathlib.Data.Finset.Prod
import ShiftReduce.Grammar.First
import ShiftReduce.Grammar.WellFormed

/-! # Growing sets of terminals

FIRST and FOLLOW are found by passes that only ever add terminals to sets.

- `TerminalSets.For`: one set for each nonterminal, of declared terminals.
- `TerminalSets.members`: how many memberships there are; a pass that changes
  anything raises it, and `growthBound` is above it.
-/

namespace ShiftReduce

namespace TerminalSets

variable {g : Grammar} {m : TerminalSets}

/-! ## One set for each nonterminal -/

structure For (g : Grammar) (m : TerminalSets) : Prop where
  keys : m.keys = g.nonterminals.keys
  declared : ∀ n t, (m.get n).contains t = true → t ∈ g.terminals.keys

theorem get_grow (m : TerminalSets) (n k : NonterminalId) (s : TerminalSet) :
    (m.grow n s).get k = if k = n then (m.get n).union s else m.get k := by
  unfold get grow
  rw [OrderedMap.find?_insert]
  split <;> rfl

theorem contains_grow_self (m : TerminalSets) (n : NonterminalId) (s : TerminalSet)
    (t : TerminalId) :
    ((m.grow n s).get n).contains t = ((m.get n).contains t || s.contains t) := by
  rw [get_grow, if_pos rfl, TerminalSet.contains_union]

theorem contains_grow {n k : NonterminalId} {s : TerminalSet} {t : TerminalId}
    (h : (m.get k).contains t = true) : ((m.grow n s).get k).contains t = true := by
  rw [get_grow]
  split
  · next hk =>
      subst hk
      rw [TerminalSet.contains_union, h, Bool.true_or]
  · exact h

/-- A member was there before, or has just been added. -/
theorem contains_grow_iff {n k : NonterminalId} {s : TerminalSet} {t : TerminalId} :
    ((m.grow n s).get k).contains t = true ↔
      (m.get k).contains t = true ∨ k = n ∧ s.contains t = true := by
  rw [get_grow]
  by_cases hk : k = n
  · subst hk
    simp [TerminalSet.contains_union]
  · simp [hk]

theorem contains_foldl_grow {ι : Type} {head : ι → NonterminalId} {add : ι → TerminalSet}
    {xs : List ι} {n : NonterminalId} {t : TerminalId}
    (h : (m.get n).contains t = true ∨ ∃ x ∈ xs, head x = n ∧ (add x).contains t = true) :
    ((xs.foldl (fun m x => m.grow (head x) (add x)) m).get n).contains t = true := by
  induction xs generalizing m with
  | nil =>
      rcases h with h | ⟨x, hx, -⟩
      · exact h
      · cases hx
  | cons x xs ih =>
      apply ih
      rcases h with h | ⟨y, hy, rfl, ht⟩
      · exact .inl (contains_grow h)
      · rcases List.mem_cons.mp hy with rfl | hy
        · left
          rw [contains_grow_self, ht, Bool.or_true]
        · exact .inr ⟨y, hy, rfl, ht⟩

/-- Nothing is added by members that are there already. -/
theorem grow_eq_self {n : NonterminalId} {s : TerminalSet} (hn : n ∈ m.keys)
    (hs : ∀ t, s.contains t = true → (m.get n).contains t = true) : m.grow n s = m := by
  have hunion : (m.get n).union s = m.get n := by
    apply TerminalSet.ext_contains
    intro t
    rw [TerminalSet.contains_union]
    cases h : s.contains t with
    | false => rw [Bool.or_false]
    | true => rw [hs t h, Bool.true_or]
  have hsome : (m.find? n).isSome = true := OrderedMap.contains_iff.mpr hn
  obtain ⟨s0, hs0⟩ := Option.isSome_iff_exists.mp hsome
  rw [grow, hunion, get, hs0]
  exact OrderedMap.insert_of_find? hs0

theorem For.grow (h : For g m) {n : NonterminalId} {s : TerminalSet}
    (hn : n ∈ g.nonterminals.keys) (hs : ∀ t, s.contains t = true → t ∈ g.terminals.keys) :
    For g (m.grow n s) where
  keys := by
    rw [TerminalSets.grow, OrderedMap.keys_insert_of_mem (h.keys ▸ hn), h.keys]
  declared := by
    intro k t ht
    rw [get_grow] at ht
    split at ht
    · rw [TerminalSet.contains_union, Bool.or_eq_true] at ht
      rcases ht with ht | ht
      · exact h.declared n t ht
      · exact hs t ht
    · exact h.declared k t ht

/-! ## How many members there are -/

def memberPairs (g : Grammar) (m : TerminalSets) : Finset (NonterminalId × TerminalId) :=
  (g.nonterminals.keys.toFinset ×ˢ g.terminals.keys.toFinset).filter
    fun p => (m.get p.1).contains p.2 = true

def members (g : Grammar) (m : TerminalSets) : Nat := (memberPairs g m).card

theorem mem_memberPairs {n : NonterminalId} {t : TerminalId} :
    (n, t) ∈ memberPairs g m ↔
      (n ∈ g.nonterminals.keys ∧ t ∈ g.terminals.keys) ∧ (m.get n).contains t = true := by
  simp [memberPairs]

theorem members_lt_growthBound (g : Grammar) (m : TerminalSets) :
    members g m < growthBound g := by
  have h1 : members g m ≤
      (g.nonterminals.keys.toFinset ×ˢ g.terminals.keys.toFinset).card :=
    Finset.card_filter_le _ _
  have h2 : g.nonterminals.keys.toFinset.card ≤ g.nonterminals.size := by
    simpa [OrderedMap.keys, OrderedMap.size] using List.toFinset_card_le g.nonterminals.keys
  have h3 : g.terminals.keys.toFinset.card ≤ g.terminals.size := by
    simpa [OrderedMap.keys, OrderedMap.size] using List.toFinset_card_le g.terminals.keys
  rw [Finset.card_product] at h1
  exact Nat.lt_succ_of_le (h1.trans (Nat.mul_le_mul h2 h3))

theorem For.grows (h : For g m) {n : NonterminalId} {s : TerminalSet}
    (hn : n ∈ g.nonterminals.keys) (hs : ∀ t, s.contains t = true → t ∈ g.terminals.keys) :
    Grows (members g) m (m.grow n s) := by
  by_cases hsub : ∀ t, s.contains t = true → (m.get n).contains t = true
  · exact .inl (grow_eq_self (h.keys ▸ hn) hsub)
  · push Not at hsub
    obtain ⟨t, hst, hmt⟩ := hsub
    -- the terminal that is new to the set is one more member
    refine .inr (Finset.card_lt_card (Finset.ssubset_iff_subset_ne.mpr ⟨?_, ?_⟩))
    · rintro ⟨k, u⟩ hp
      obtain ⟨hku, hmu⟩ := mem_memberPairs.mp hp
      exact mem_memberPairs.mpr ⟨hku, contains_grow hmu⟩
    · intro heq
      have hnew : (n, t) ∈ memberPairs g (m.grow n s) := by
        refine mem_memberPairs.mpr ⟨⟨hn, hs t hst⟩, ?_⟩
        rw [contains_grow_self, hst, Bool.or_true]
      rw [← heq] at hnew
      exact hmt (mem_memberPairs.mp hnew).2

/-- What a change that changes nothing has put in was there before. -/
theorem contains_of_grow_eq {n : NonterminalId} {s : TerminalSet} {t : TerminalId}
    (h : m.grow n s = m) (ht : s.contains t = true) : (m.get n).contains t = true := by
  rw [← h, contains_grow_self, ht, Bool.or_true]

/-! ## Where the passes begin -/

theorem contains_const {ns : List NonterminalId} (hns : ns.Nodup) (n : NonterminalId)
    (t : TerminalId) : (get (.const ns ∅) n).contains t = false := by
  unfold get
  cases hf : (OrderedMap.const ns (∅ : TerminalSet)).find? n with
  | none => rw [Option.getD_none, TerminalSet.contains_empty]
  | some s =>
      have hs := OrderedMap.mem_entries_of_find? hf
      rw [OrderedMap.entries_const hns, List.mem_map] at hs
      obtain ⟨k, -, hk⟩ := hs
      cases hk
      rw [Option.getD_some, TerminalSet.contains_empty]

theorem for_const (hg : g.WellFormed) : For g (.const g.nonterminals.keys ∅) := by
  refine ⟨?_, ?_⟩
  · show (OrderedMap.const g.nonterminals.keys _).entries.map Prod.fst = _
    rw [OrderedMap.entries_const hg.nonterminal_keys, List.map_map]
    exact List.map_id _
  · intro n t ht
    rw [contains_const hg.nonterminal_keys] at ht
    cases ht

end TerminalSets

end ShiftReduce
