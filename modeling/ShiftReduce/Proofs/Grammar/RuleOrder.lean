import ShiftReduce.Proofs.Grammar.Drafts

/-! # The order of rules

Rules are numbered in the order of their declaration, so a list that is in the order of their
numbers is in that order as well.

- `OrderedMap.Ascending`: the keys of a map ascend in the order of its entries.
- `Draft.ascending_performAll`: declarations keep the rules of a draft ascending.
- `Grammar.IsDefined.ascending_rules`: so the rules of a grammar ascend.
-/

namespace ShiftReduce

def OrderedMap.Ascending {α : Type} (m : OrderedMap Nat α) : Prop := m.keys.Pairwise (· < ·)

theorem Numbered.ascending_insert {α : Type} {number : α → Nat} {m : OrderedMap Nat α}
    {next : Nat} (h : Numbered number m next) (hm : m.Ascending) (a : α) :
    (m.insert next a).Ascending := by
  rw [OrderedMap.Ascending, h.keys_insert, List.pairwise_append]
  refine ⟨hm, List.pairwise_singleton _ _, ?_⟩
  intro k hk k' hk'
  rw [List.mem_singleton.mp hk']
  exact h.below k hk

namespace Draft

variable {d d' : Draft}

theorem ascending_addRule (hd : d.WellFormed) (hrules : d.rules.Ascending)
    {head : NonterminalId} {body : List Symbol} {r : RuleId}
    (h : d.addRule head body = .ok (r, d')) : d'.rules.Ascending := by
  obtain ⟨-, -, ⟨-, rfl⟩ | ⟨-, -, rfl⟩⟩ := addRule_eq_ok h
  · exact hrules
  · exact hd.rules.ascending_insert hrules _

theorem ascending_declare (hd : d.WellFormed) (hrules : d.rules.Ascending) {c : Declaration}
    {id : Option Nat} (h : d.declare c = .ok (id, d')) : d'.rules.Ascending := by
  cases c with
  | terminal name =>
      obtain ⟨⟨t, e⟩, he, h⟩ := exists_of_map_eq_ok h
      cases h
      obtain ⟨-, -, -, rfl⟩ := declareTerminal_eq_ok he
      exact hrules
  | nonterminal name =>
      obtain ⟨⟨n, e⟩, he, h⟩ := exists_of_map_eq_ok h
      cases h
      obtain ⟨-, -, -, rfl⟩ := declareNonterminal_eq_ok he
      exact hrules
  | rule head body =>
      obtain ⟨⟨r, e⟩, he, h⟩ := exists_of_map_eq_ok h
      cases h
      exact ascending_addRule hd hrules he
  | start n =>
      obtain ⟨e, he, h⟩ := exists_of_map_eq_ok h
      cases h
      obtain ⟨-, rfl⟩ := setStart_eq_ok he
      exact hrules
  | fail reason => cases h

theorem ascending_perform (hd : d.WellFormed) (hrules : d.rules.Ascending) (c : Declaration) :
    (d.perform c).2.rules.Ascending := by
  unfold perform
  split
  · next h => exact ascending_declare hd hrules h
  · exact hrules

theorem ascending_performAll (hd : d.WellFormed) (hrules : d.rules.Ascending)
    (cs : List Declaration) : (d.performAll cs).2.rules.Ascending := by
  induction cs generalizing d with
  | nil => exact hrules
  | cons c cs ih => exact ih (hd.perform c) (ascending_perform hd hrules c)

theorem ascending_finish (hrules : d.rules.Ascending) {g : Grammar} (h : d.finish = .ok g) :
    g.rules.Ascending := by
  obtain ⟨-, -, -, hr⟩ := finish_eq_ok h
  rw [hr]
  exact hrules

end Draft

theorem Grammar.IsDefined.ascending_rules {g : Grammar} (hg : g.IsDefined) :
    g.rules.Ascending := by
  induction hg with
  | define h =>
      have hempty : Draft.empty.rules.Ascending := List.Pairwise.nil
      exact Draft.ascending_finish
        (Draft.ascending_performAll Draft.wellFormed_empty hempty _) h
  | extend hg h ih =>
      have hd := Draft.wellFormed_ofGrammar hg.wellFormed
      exact Draft.ascending_finish (Draft.ascending_performAll hd ih _) h

end ShiftReduce
