import ShiftReduce.Proofs.Grammar.FirstSets
import ShiftReduce.Proofs.Grammar.Productive

/-! # Hidden left recursion

A nonterminal that derives itself behind symbols that can vanish needs the body of a rule
with a nonterminal behind such symbols. Grammars without such bodies may well be left
recursive, and their rules may have the empty body.

- `Grammar.HidesNone`: in the string no nonterminal stands behind symbols that can vanish.
- `HidesNone.expands`: where this holds of all bodies, a derivation keeps it.
- `not_isHiddenLeftRecursive`: so no nonterminal is hidden left recursive.
- `hidesNone_of_leadingSymbols`: how to tell from the FIRST sets.
-/

namespace ShiftReduce

namespace Grammar

variable {g : Grammar}

/-- What stands before a nonterminal does not vanish, unless it is empty. -/
def HidesNone (g : Grammar) (ss : List Symbol) : Prop :=
  ∀ before n after, ss = before ++ .nonterminal n :: after → g.IsNullable before → before = []

theorem hidesNone_single (g : Grammar) (s : Symbol) : g.HidesNone [s] := by
  intro before n after h _
  cases before with
  | nil => rfl
  | cons s before => simp at h

theorem HidesNone.expands (hbodies : ∀ n body, g.Produces n body → g.HidesNone body)
    {us vs : List Symbol} (h : g.HidesNone us) (hstep : g.Expands us vs) : g.HidesNone vs := by
  cases hstep with
  | @rule x y m body hp =>
      intro before n after hsplit hnull
      rw [List.append_assoc] at hsplit
      rcases append_eq_append_cons hsplit with ⟨w, rfl, rfl⟩ | ⟨w, rfl, hw⟩
      · -- the nonterminal stands before the body
        exact h before n (w ++ .nonterminal m :: y) (by simp) hnull
      · rcases append_eq_append_cons hw with ⟨w', rfl, rfl⟩ | ⟨w', rfl, rfl⟩
        · -- it stands in the body
          obtain ⟨hx, hw⟩ := IsNullable.of_append hnull
          rw [h x m y rfl hx, hbodies m _ hp w n w' rfl hw]
          rfl
        · -- it stands after the body, and with the body the head would vanish
          rw [← List.append_assoc] at hnull
          have hhead : g.IsNullable (x ++ .nonterminal m :: w') :=
            Relation.ReflTransGen.head (.rule x w' hp) hnull
          have hnil := h (x ++ .nonterminal m :: w') n after (by simp) hhead
          exact absurd hnil (by simp)

theorem HidesNone.derives (hbodies : ∀ n body, g.Produces n body → g.HidesNone body)
    {us vs : List Symbol} (h : g.HidesNone us) (hd : g.Derives us vs) : g.HidesNone vs := by
  induction hd with
  | refl => exact h
  | tail _ hstep ih => exact ih.expands hbodies hstep

theorem not_isHiddenLeftRecursive (hbodies : ∀ n body, g.Produces n body → g.HidesNone body)
    (n : NonterminalId) : ¬ g.IsHiddenLeftRecursive n := by
  rintro ⟨before, after, hne, hnull, hd⟩
  have hall := (hidesNone_single g (.nonterminal n)).derives hbodies hd.to_reflTransGen
  exact hne (hall before n after rfl hnull)

/-- It is enough that among the symbols that can come first in a string only the first one is
a nonterminal. -/
theorem hidesNone_of_leadingSymbols (hg : g.WellFormed) {ss : List Symbol}
    (h : (leadingSymbols g.firstSets.nullable ss).tail.all isTerminal = true) :
    g.HidesNone ss := by
  rintro before n after rfl hnull
  have hall : before.all (isNullableIn g.firstSets.nullable) = true :=
    isNullable_of_derives hg hnull
  rw [leadingSymbols_append hall] at h
  have hmem : .nonterminal n ∈ leadingSymbols g.firstSets.nullable (.nonterminal n :: after) := by
    rw [leadingSymbols]
    split
    · exact List.mem_cons_self
    · exact List.mem_singleton_self _
  cases before with
  | nil => rfl
  | cons s before =>
      have hterminal := List.all_eq_true.mp h _ (List.mem_append_right before hmem)
      cases hterminal

theorem not_isHiddenLeftRecursive_of_leadingSymbols (hg : g.WellFormed)
    (h : (g.rules.values.all fun r =>
      (leadingSymbols g.firstSets.nullable r.body).tail.all isTerminal) = true)
    (n : NonterminalId) : ¬ g.IsHiddenLeftRecursive n := by
  refine not_isHiddenLeftRecursive ?_ n
  rintro m body ⟨r, hr, rfl, rfl⟩
  exact hidesNone_of_leadingSymbols hg (List.all_eq_true.mp h r hr)

end Grammar

end ShiftReduce
