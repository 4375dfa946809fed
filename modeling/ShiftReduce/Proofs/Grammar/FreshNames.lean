import Mathlib.Data.List.Perm.Subperm
import Mathlib.Logic.Function.Iterate
import ShiftReduce.Proofs.Grammar.Augmentation

/-! # A name for the new start symbol

- `withPrimes`: a name with a number of primes behind it.
- `declares_primed`: among one more of these names than there are symbols, one is free.
- `Grammar.HasSpareIds`: there are numbers left for a nonterminal and a rule.
- `WellFormed.exists_augment`: if there are, nothing else keeps a grammar from being augmented.
-/

namespace ShiftReduce

/-! ## Names with primes -/

def withPrimes (name : String) (k : Nat) : String := (· ++ "'")^[k] name

theorem length_withPrimes (name : String) (k : Nat) :
    (withPrimes name k).length = name.length + k := by
  induction k with
  | zero => rfl
  | succ k ih =>
      rw [withPrimes, Function.iterate_succ_apply', String.length_append]
      show (withPrimes name k).length + 1 = _
      rw [ih, Nat.add_assoc]

theorem withPrimes_injective (name : String) : Function.Injective (withPrimes name) := by
  intro k k' h
  have hlength := congrArg String.length h
  rw [length_withPrimes, length_withPrimes] at hlength
  exact Nat.add_left_cancel hlength

/-- If the name that is found is taken, then so are all that have been tried. -/
theorem taken_of_primed {taken : String → Bool} {n : Nat} {name : String}
    (h : taken (primed taken n name) = true) :
    ∀ k ≤ n, taken (withPrimes name k) = true := by
  induction n generalizing name with
  | zero =>
      intro k hk
      rw [Nat.le_zero.mp hk]
      exact h
  | succ n ih =>
      intro k hk
      rw [primed] at h
      split at h
      · next hname =>
          cases k with
          | zero => exact hname
          | succ k => exact ih h k (Nat.le_of_succ_le_succ hk)
      · next hname => exact absurd h hname

/-- No more names are taken than there are, so one name more cannot be. -/
theorem declares_primed {taken : String → Bool} {names : List String}
    (htaken : ∀ name, taken name = true → name ∈ names) (name : String) :
    taken (primed taken names.length name) = false := by
  rw [← Bool.not_eq_true]
  intro h
  have hnodup : ((List.range (names.length + 1)).map (withPrimes name)).Nodup :=
    List.nodup_range.map (withPrimes_injective name)
  have hsubset : ((List.range (names.length + 1)).map (withPrimes name)) ⊆ names := by
    intro name' hname'
    obtain ⟨k, hk, rfl⟩ := List.mem_map.mp hname'
    exact htaken _ (taken_of_primed h k (Nat.le_of_lt_succ (List.mem_range.mp hk)))
  have hle := (List.subperm_of_subset hnodup hsubset).length_le
  rw [List.length_map, List.length_range] at hle
  exact Nat.not_succ_le_self _ hle

theorem isValidName_prime {name : String} (h : isValidName name = true) :
    isValidName (name ++ "'") = true := by
  have hlast : (name ++ "'").toList.getLast? = some '\'' := by simp
  have hreserved : ∀ r ∈ reservedNames, name ++ "'" ≠ r := by
    rintro r hr rfl
    have hnone : ∀ r ∈ reservedNames, r.toList.getLast? ≠ some '\'' := by decide
    exact hnone _ hr hlast
  have hne : name ++ "'" ≠ "" := by
    intro he
    rw [he] at hlast
    cases hlast
  simp only [isValidName, Bool.and_eq_true, bne_iff_ne, Bool.not_eq_true', ne_eq] at h ⊢
  refine ⟨⟨hne, ?_⟩, ?_⟩
  · rw [← Bool.not_eq_true, List.contains_iff_mem]
    exact fun hmem => hreserved _ hmem rfl
  · rw [String.toList_append, List.any_append, h.2]
    decide

theorem isValidName_primed {taken : String → Bool} {n : Nat} {name : String}
    (h : isValidName name = true) : isValidName (primed taken n name) = true := by
  induction n generalizing name with
  | zero => exact h
  | succ n ih =>
      rw [primed]
      split
      · exact ih (isValidName_prime h)
      · exact h

namespace Grammar

variable {g : Grammar}

/-! ## The name of the new symbol -/

theorem declares_iff {name : String} : g.declares name = true ↔
    name ∈ g.terminals.values.map (·.name) ++ g.nonterminals.values.map (·.name) := by
  simp [declares]

theorem declares_freshStartName (g : Grammar) : g.declares g.freshStartName = false := by
  have htaken : ∀ name, g.declares name = true → name ∈ _ := fun _ => declares_iff.mp
  have hfree := declares_primed htaken (g.nonterminalName g.start ++ "'")
  rwa [List.length_append, List.length_map, List.length_map, OrderedMap.length_values,
    OrderedMap.length_values] at hfree

theorem WellFormed.isValidName_freshStartName (hg : g.WellFormed) :
    isValidName g.freshStartName = true := by
  apply isValidName_primed
  apply isValidName_prime
  obtain ⟨x, hx⟩ := OrderedMap.mem_keys.mp hg.start
  rw [nonterminalName, OrderedMap.find?_of_mem_entries hg.nonterminal_keys hx]
  exact hg.nonterminal_names x (OrderedMap.mem_values.mpr ⟨_, hx⟩)

/-! ## Augmenting succeeds -/

/-- There are numbers left for another nonterminal and another rule. -/
structure HasSpareIds (g : Grammar) : Prop where
  nonterminals : (Draft.ofGrammar g).nextNonterminal < idLimit
  rules : (Draft.ofGrammar g).nextRule < idLimit

instance (g : Grammar) : Decidable g.HasSpareIds :=
  decidable_of_iff ((Draft.ofGrammar g).nextNonterminal < idLimit ∧
    (Draft.ofGrammar g).nextRule < idLimit)
    ⟨fun h => ⟨h.1, h.2⟩, fun h => ⟨h.nonterminals, h.rules⟩⟩

/-- A draft accepts the new symbol, its rule and its choice one after the other. -/
theorem augment_of_eq_ok {n : NonterminalId} {r : RuleId} {d1 d2 d3 : Draft} {grammar : Grammar}
    (h1 : (Draft.ofGrammar g).declareNonterminal g.freshStartName = .ok (n, d1))
    (h2 : d1.addRule n [.nonterminal g.start] = .ok (r, d2)) (h3 : d2.setStart n = .ok d3)
    (h4 : d3.finish = .ok grammar) : g.augment = .ok ⟨grammar, g.start, r⟩ := by
  simp only [Grammar.augment, bind, Except.bind, h1, h2, h3, h4]
  rfl

/-- The draft with the new symbol accepts its rule, so long as there is a number for it. -/
theorem WellFormed.declared_freshStart (hg : g.WellFormed) {n : NonterminalId} {d : Draft}
    (h : (Draft.ofGrammar g).declareNonterminal g.freshStartName = .ok (n, d)) :
    n ∉ g.nonterminals.keys ∧ n ∈ d.nonterminals.keys ∧
      (∀ s ∈ [Symbol.nonterminal g.start], d.allows s = true) ∧
      d.rules = g.rules ∧ d.nextRule = (Draft.ofGrammar g).nextRule := by
  have hnumbered := (Draft.wellFormed_ofGrammar hg).nonterminals
  obtain ⟨-, -, rfl, rfl⟩ := Draft.declareNonterminal_eq_ok h
  refine ⟨hnumbered.fresh, hnumbered.mem_keys_insert.mpr (.inr rfl), ?_, rfl, rfl⟩
  intro s hs
  rw [List.mem_singleton.mp hs]
  exact OrderedMap.contains_iff.mpr (hnumbered.mem_keys_insert.mpr (.inl hg.start))

theorem WellFormed.exists_augment (hg : g.WellFormed) (hids : g.HasSpareIds) :
    ∃ a, g.augment = .ok a := by
  have hfresh : ¬ (Draft.ofGrammar g).declares g.freshStartName = true :=
    Bool.eq_false_iff.mp g.declares_freshStartName
  obtain ⟨⟨n, d1⟩, h1⟩ := Draft.declareNonterminal_isOk_iff.mpr
    ⟨hg.isValidName_freshStartName, hfresh, hids.nonterminals⟩
  obtain ⟨-, hn, hbody, -, hnext⟩ := hg.declared_freshStart h1
  obtain ⟨⟨r, d2⟩, h2⟩ : ∃ p, d1.addRule n [.nonterminal g.start] = .ok p := by
    rw [Draft.addRule_isOk_iff (OrderedMap.contains_iff.mpr hn) hbody, hnext]
    exact .inr hids.rules
  have hd2 : d2.nonterminals = d1.nonterminals := by
    obtain ⟨-, -, ⟨-, rfl⟩ | ⟨-, -, rfl⟩⟩ := Draft.addRule_eq_ok h2 <;> rfl
  have h3 : d2.setStart n = .ok { d2 with start := some n } := by
    rw [Draft.setStart, if_pos]
    rw [OrderedMap.contains_iff, hd2]
    exact hn
  exact ⟨_, augment_of_eq_ok h1 h2 h3 rfl⟩

end Grammar

end ShiftReduce
