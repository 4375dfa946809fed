import Mathlib.Data.Nat.Find
import Mathlib.Data.Set.Finite.List
import Mathlib.Order.Preorder.Finite
import ShiftReduce.Proofs.Grammar.Yields

/-! # Endless contractions

A reduction contracts the symbols on top of a stack, the body of a rule, to its head.
If this goes on without end and no nonterminal derives itself, the stack grows beyond
all bounds: a height to which it came back again and again would show one nonterminal
twice on top, and the later one derives the earlier.

- `Grammar.Contracts`: one contraction, stacks being told from the top.
- `exists_over`: what happens above a part of the stack that is not touched.
- `exists_height`: the stack grows beyond all bounds.
- `exists_last`: each height is left for good.
-/

namespace ShiftReduce

namespace Grammar

variable {g : Grammar}

/-- The body of a rule on top of the stack becomes its head. -/
inductive Contracts (g : Grammar) : List Symbol → List Symbol → Prop where
  | rule {n : NonterminalId} {body : List Symbol} (below : List Symbol)
      (h : g.Produces n body) : Contracts g (body.reverse ++ below) (.nonterminal n :: below)

/-- Read from the bottom, a contraction is a step of a derivation, backwards. -/
theorem Contracts.expands {us vs : List Symbol} (h : g.Contracts us vs) :
    g.Expands vs.reverse us.reverse := by
  cases h with
  | rule below h =>
      have h1 := Expands.rule below.reverse [] h
      rwa [List.append_nil, ← List.reverse_cons, ← List.reverse_reverse (_ ++ _),
        List.reverse_append, List.reverse_reverse] at h1

theorem Contracts.length {us vs : List Symbol} (h : g.Contracts us vs) :
    vs.length ≤ us.length + 1 := by
  cases h with
  | rule below _ =>
      rw [List.length_cons, List.length_append]
      exact Nat.succ_le_succ (Nat.le_add_left _ _)

/-- A contraction that leaves more than `base` takes nothing from it. -/
theorem Contracts.above {us vs base : List Symbol} (h : g.Contracts (us ++ base) vs)
    (hlen : base.length < vs.length) : ∃ us', vs = us' ++ base ∧ g.Contracts us us' := by
  generalize hwhole : us ++ base = whole at h
  cases h with
  | @rule n body below h =>
      rw [List.length_cons, Nat.lt_succ_iff] at hlen
      rcases List.append_eq_append_iff.mp hwhole with ⟨w, hw, hbase⟩ | ⟨w, rfl, rfl⟩
      · -- the body would reach into the base, so nothing of it does
        have hnil : w = [] := by
          rw [hbase, List.length_append] at hlen
          exact List.eq_nil_of_length_eq_zero (by omega)
        subst hnil
        rw [List.append_nil] at hw
        rw [List.nil_append] at hbase
        refine ⟨[.nonterminal n], by rw [hbase]; rfl, ?_⟩
        have h1 := Contracts.rule [] h
        rwa [List.append_nil, hw] at h1
      · exact ⟨.nonterminal n :: w, rfl, .rule w h⟩

/-! ## Endless sequences -/

variable {stack : Nat → List Symbol}

/-- Above a part of the stack that is never touched, later symbols derive earlier
ones. -/
theorem exists_over (h : ∀ n, g.Contracts (stack n) (stack (n + 1))) {m : Nat}
    {us base : List Symbol} (hm : stack m = us ++ base)
    (hover : ∀ n, m < n → base.length < (stack n).length) (n : Nat) :
    ∃ us', stack (m + n) = us' ++ base ∧ g.Derives us'.reverse us.reverse ∧
      (0 < n → g.DerivesProperly us'.reverse us.reverse) := by
  induction n with
  | zero => exact ⟨us, hm, .refl, fun h => absurd h (Nat.lt_irrefl 0)⟩
  | succ n ih =>
      obtain ⟨us1, hus1, hd, -⟩ := ih
      have hstep := h (m + n)
      rw [hus1] at hstep
      obtain ⟨us2, hus2, hc⟩ := hstep.above (hover (m + n + 1) (by omega))
      have hproper := Relation.TransGen.head' hc.expands hd
      exact ⟨us2, hus2, hproper.to_reflTransGen, fun _ => hproper⟩

/-- Whatever is on top after a contraction is a declared nonterminal. -/
theorem Contracts.head (hg : g.WellFormed) {us vs : List Symbol} (h : g.Contracts us vs) :
    ∃ n ∈ g.nonterminals.keys, ∃ below, vs = .nonterminal n :: below := by
  cases h with
  | @rule n body below h => exact ⟨n, h.declared hg, below, rfl⟩

theorem exists_top (hg : g.WellFormed) (h : ∀ n, g.Contracts (stack n) (stack (n + 1))) {n : Nat}
    (hn : 0 < n) : ∃ s ∈ g.nonterminals.keys, ∃ below, stack n = .nonterminal s :: below := by
  obtain ⟨k, rfl⟩ := Nat.exists_eq_succ_of_ne_zero (Nat.ne_of_gt hn)
  exact (h k).head hg

/-- If the stack is low again and again, one nonterminal is twice on top of a low stack. -/
theorem exists_recurring_top (hg : g.WellFormed)
    (h : ∀ n, g.Contracts (stack n) (stack (n + 1))) {b : Nat}
    (hagain : ∀ k, ∃ n, k ≤ n ∧ (stack n).length ≤ b) (m : Nat) :
    ∃ i j s base base', m < i ∧ i < j ∧ stack i = .nonterminal s :: base ∧
      stack j = .nonterminal s :: base' ∧ base.length < b ∧ base'.length < b := by
  have hinfinite : {n | m < n ∧ (stack n).length ≤ b}.Infinite := by
    apply Set.infinite_of_forall_exists_gt
    intro k
    obtain ⟨n, hn, hle⟩ := hagain (m + k + 1)
    exact ⟨n, ⟨by omega, hle⟩, by omega⟩
  -- only finitely many symbols can be on top
  have hfinite : (some '' {s | ∃ n ∈ g.nonterminals.keys, Symbol.nonterminal n = s}).Finite :=
    ((List.finite_toSet g.nonterminals.keys).image Symbol.nonterminal).image some
  obtain ⟨i, ⟨hi, hlei⟩, j, ⟨hj, hlej⟩, hij, hsame⟩ :=
    hinfinite.exists_lt_map_eq_of_mapsTo (f := fun n => (stack n).head?) (by
      rintro n ⟨hn, -⟩
      obtain ⟨s, hs, below, hbelow⟩ := exists_top hg h (Nat.zero_lt_of_lt hn)
      exact ⟨.nonterminal s, ⟨s, hs, rfl⟩, by simp [hbelow]⟩) hfinite
  obtain ⟨s, -, base, hbase⟩ := exists_top hg h (Nat.zero_lt_of_lt hi)
  obtain ⟨s', -, base', hbase'⟩ := exists_top hg h (Nat.zero_lt_of_lt hj)
  have hs : s = s' := by simpa [hbase, hbase'] using hsame
  subst hs
  rw [hbase] at hlei
  rw [hbase'] at hlej
  exact ⟨i, j, s, base, base', hi, hij, hbase, hbase', hlei, hlej⟩

/-- If no nonterminal derives itself, the stack does not come back to a height again
and again. -/
theorem exists_height (hg : g.WellFormed) (hacyclic : g.IsAcyclic)
    (h : ∀ n, g.Contracts (stack n) (stack (n + 1))) (b : Nat) :
    ∃ m, ∀ n, m ≤ n → b ≤ (stack n).length := by
  induction b with
  | zero => exact ⟨0, fun _ _ => Nat.zero_le _⟩
  | succ b ih =>
      obtain ⟨m, hm⟩ := ih
      by_contra hlow
      have hagain : ∀ k, ∃ n, k ≤ n ∧ (stack n).length ≤ b := by
        intro k
        by_contra hk
        exact hlow ⟨k, fun n hn => Nat.lt_of_not_le fun hle => hk ⟨n, hn, hle⟩⟩
      obtain ⟨i, j, s, base, base', hi, hij, hbase, hbase', hlen, hlen'⟩ :=
        exists_recurring_top hg h hagain m
      -- both times it is one symbol on a base that has not been touched
      have hleast := hm i (Nat.le_of_lt hi)
      have hleast' := hm j (Nat.le_of_lt (Nat.lt_trans hi hij))
      rw [hbase, List.length_cons] at hleast
      rw [hbase', List.length_cons] at hleast'
      rw [← List.singleton_append] at hbase hbase'
      obtain ⟨us, hus, -, hproper⟩ := exists_over h hbase
        (fun n hn => Nat.lt_of_lt_of_le hlen (hm n (by omega))) (j - i)
      rw [Nat.add_sub_cancel' (Nat.le_of_lt hij), hbase'] at hus
      obtain ⟨rfl, -⟩ := List.append_inj' hus (by omega)
      exact hacyclic s (hproper (by omega))

/-- Each height, from the first one on, is left for good at some time. -/
theorem exists_last (hg : g.WellFormed) (hacyclic : g.IsAcyclic)
    (h : ∀ n, g.Contracts (stack n) (stack (n + 1))) {b : Nat}
    (hb : (stack 0).length ≤ b) :
    ∃ m, (stack m).length = b ∧ ∀ n, m < n → b < (stack n).length := by
  obtain ⟨k, hk⟩ := exists_height hg hacyclic h (b + 1)
  -- the last time that the stack is no higher than `b`
  have hlow := Nat.findGreatest_spec (P := fun n => (stack n).length ≤ b) (Nat.zero_le k) hb
  have hhigh : ∀ n, Nat.findGreatest (fun n => (stack n).length ≤ b) k < n →
      b < (stack n).length := by
    intro n hn
    rcases Nat.lt_or_ge k n with hkn | hkn
    · exact hk n (Nat.le_of_lt hkn)
    · have hnot := Nat.findGreatest_is_greatest (P := fun n => (stack n).length ≤ b) hn hkn
      exact Nat.lt_of_not_le hnot
  refine ⟨_, Nat.le_antisymm hlow ?_, hhigh⟩
  have hnext := hhigh _ (Nat.lt_succ_self _)
  exact Nat.le_of_lt_succ (Nat.lt_of_lt_of_le hnext (h _).length)

end Grammar

end ShiftReduce
