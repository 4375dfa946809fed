import ShiftReduce.Proofs.Grammar.FirstExactness
import ShiftReduce.Proofs.Grammar.FollowSets

/-! # FOLLOW sets hold nothing else

Whatever the passes put into a FOLLOW set does come after the nonterminal in some string
that is derived, so with what they do not miss the sets are exact.

- `Grammar.Precedes`: the nonterminal stands right before the terminal, or ends a string
  that the start symbol derives.
- `Precedes.of_first`, `Precedes.of_head`: the two ways in which a rule passes this on to a
  nonterminal of its body.
- `HoldsFollowers`: the invariant of the passes.
- `followSets_exact`: the search comes to an end, and what it finds is what derivations say.
-/

namespace ShiftReduce

variable {g : Grammar}

/-! ## What comes after a nonterminal -/

namespace Grammar

/-- Some nonterminal derives a string in which the terminal comes right after `n`. The end of
the input comes after the last symbol of what the start symbol derives. -/
inductive Precedes (g : Grammar) (n : NonterminalId) : TerminalId → Prop where
  | within {c : NonterminalId} {t : TerminalId} {before after : List Symbol}
      (declared : c ∈ g.nonterminals.keys)
      (derives : g.Derives [.nonterminal c]
        (before ++ .nonterminal n :: .terminal t :: after)) : Precedes g n t
  | last {before : List Symbol}
      (derives : g.Derives [.nonterminal g.start] (before ++ [.nonterminal n])) :
      Precedes g n endOfInput

variable {n b : NonterminalId} {before rest : List Symbol}

/-- A rule is applied in a string, and what comes after `b` in its body vanishes. -/
theorem Derives.apply_rule {us x y : List Symbol} (h : g.Derives us (x ++ .nonterminal n :: y))
    (hp : g.Produces n (before ++ .nonterminal b :: rest)) (hrest : g.IsNullable rest) :
    g.Derives us ((x ++ before) ++ .nonterminal b :: y) := by
  have hrule := hp.derives.context x y
  have hvanish := Derives.context hrest (x ++ before ++ [.nonterminal b]) y
  simp only [List.append_assoc, List.cons_append, List.nil_append] at h hrule hvanish ⊢
  exact Relation.ReflTransGen.trans h (hrule.trans hvanish)

theorem Precedes.of_first (hg : g.WellFormed)
    (hp : g.Produces n (before ++ .nonterminal b :: rest)) {t : TerminalId}
    (ht : ∃ after, g.Derives rest (.terminal t :: after)) : g.Precedes b t := by
  obtain ⟨after, hd⟩ := ht
  have hbody := hd.context (before ++ [.nonterminal b]) []
  simp only [List.append_nil, List.append_assoc, List.cons_append, List.nil_append] at hbody
  exact .within (hp.declared hg) (hp.derives.trans hbody)

theorem Precedes.of_head (hp : g.Produces n (before ++ .nonterminal b :: rest))
    (hrest : g.IsNullable rest) {t : TerminalId} (h : g.Precedes n t) : g.Precedes b t := by
  cases h with
  | within declared derives => exact .within declared (derives.apply_rule hp hrest)
  | last derives => exact .last (derives.apply_rule hp hrest)

/-- The end of the input is no terminal of a rule, so only the second way is left for it. -/
theorem Precedes.endOfInput_iff (hg : g.WellFormed) :
    g.Precedes n endOfInput ↔
      ∃ before, g.Derives [.nonterminal g.start] (before ++ [.nonterminal n]) := by
  constructor
  · intro h
    cases h with
    | within declared derives =>
        have hallows := derives.allows_of_declared hg declared (.terminal endOfInput) (by simp)
        exact absurd rfl hallows.1
    | last derives => exact ⟨_, derives⟩
  · rintro ⟨before, hd⟩
    exact .last hd

theorem Precedes.terminal_iff {t : TerminalId} (ht : t ≠ endOfInput) :
    g.Precedes n t ↔ ∃ c ∈ g.nonterminals.keys, ∃ before after,
      g.Derives [.nonterminal c] (before ++ .nonterminal n :: .terminal t :: after) := by
  constructor
  · intro h
    cases h with
    | within declared derives => exact ⟨_, declared, _, _, derives⟩
    | last _ => exact absurd rfl ht
  · rintro ⟨c, hc, before, after, hd⟩
    exact .within hc hd

end Grammar

/-! ## The passes -/

/-- Every terminal in the set of a nonterminal comes after it. -/
def HoldsFollowers (g : Grammar) (m : TerminalSets) : Prop :=
  ∀ n t, (m.get n).contains t = true → g.Precedes n t

theorem HoldsFollowers.grow {m : TerminalSets} (h : HoldsFollowers g m) {n : NonterminalId}
    {s : TerminalSet} (hs : ∀ t, s.contains t = true → g.Precedes n t) :
    HoldsFollowers g (m.grow n s) := by
  intro k t ht
  rcases TerminalSets.contains_grow_iff.mp ht with hold | ⟨rfl, hnew⟩
  · exact h k t hold
  · exact hs t hnew

theorem holdsFollowers_followSeed (hg : g.WellFormed) : HoldsFollowers g (followSeed g) := by
  apply HoldsFollowers.grow
  · intro n t ht
    rw [TerminalSets.contains_const hg.nonterminal_keys] at ht
    cases ht
  · intro t ht
    rw [TerminalSet.contains_insert, TerminalSet.contains_empty, Bool.false_or,
      decide_eq_true_eq] at ht
    subst ht
    have hstart : g.Derives [.nonterminal g.start] ([] ++ [.nonterminal g.start]) := .refl
    exact .last hstart

theorem HoldsFollowers.followAfter (hg : g.WellFormed) {m : TerminalSets}
    (h : HoldsFollowers g m) {head b : NonterminalId} {before rest : List Symbol}
    (hp : g.Produces head (before ++ .nonterminal b :: rest)) :
    HoldsFollowers g (followAfter g.firstSets head b rest m) := by
  have hfirst : HoldsFollowers g (m.grow b (g.firstSets.ofSymbols rest).terminals) :=
    h.grow fun t ht => .of_first hg hp ((contains_ofSymbols_iff hg).mp ht)
  unfold ShiftReduce.followAfter
  dsimp only
  split
  · next hnull =>
      rw [Bool.and_eq_true] at hnull
      exact hfirst.grow fun t ht =>
        .of_head hp ((nullable_ofSymbols_iff hg).mp hnull.1) (hfirst head t ht)
  · exact hfirst

/-- The part of the body that has been gone through only counts as what stands before. -/
theorem HoldsFollowers.followBody (hg : g.WellFormed) {head : NonterminalId}
    {before rest : List Symbol} {m : TerminalSets} (h : HoldsFollowers g m)
    (hp : g.Produces head (before ++ rest)) :
    HoldsFollowers g (followBody g.firstSets head rest m) := by
  induction rest generalizing before m with
  | nil => exact h
  | cons s rest ih =>
      have hnext : g.Produces head ((before ++ [s]) ++ rest) := by
        rwa [List.append_assoc]
      cases s with
      | terminal t => exact ih h hnext
      | nonterminal b => exact ih (h.followAfter hg hp) hnext

theorem HoldsFollowers.followPass (hg : g.WellFormed) {m : TerminalSets}
    (h : HoldsFollowers g m) : HoldsFollowers g (followPass g g.firstSets m) := by
  apply foldl_kept _ h
  intro m r hr hm
  have hp : g.Produces r.head ([] ++ r.body) := ⟨r, hr, rfl, rfl⟩
  exact hm.followBody hg hp

theorem holdsFollowers_followSets (hg : g.WellFormed) :
    HoldsFollowers g (g.followSets g.firstSets).sets :=
  (settles_followSets hg).kept (fun _ hm => hm.followPass hg) (holdsFollowers_followSeed hg)

/-! ## Exactness -/

/-- What ends a string that the start symbol derives is followed by the end of the input. -/
theorem followSets_of_derives_last (hg : g.WellFormed) {n : NonterminalId}
    {before : List Symbol}
    (h : g.Derives [.nonterminal g.start] (before ++ [.nonterminal n])) :
    ((g.followSets g.firstSets).get n).contains endOfInput = true :=
  (followsWithin_of_derives hg h before n [] rfl).2 rfl endOfInput (followSets_start hg)

theorem contains_followSets_iff (hg : g.WellFormed) {n : NonterminalId} {t : TerminalId} :
    ((g.followSets g.firstSets).get n).contains t = true ↔ g.Precedes n t := by
  constructor
  · intro h
    exact holdsFollowers_followSets hg n t h
  · intro h
    cases h with
    | within _ derives => exact followSets_of_derives hg derives
    | last derives => exact followSets_of_derives_last hg derives

/-- The search for FOLLOW sets comes to an end by itself, with one set for each nonterminal.
A set holds the terminals that come right after its nonterminal in strings that any
nonterminal derives, and the end of the input if some string that the start symbol derives
ends with the nonterminal. -/
theorem followSets_exact (hg : g.IsBuilt) :
    Settles (followPass g g.firstSets) (followSeed g) (g.followSets g.firstSets).sets
      (g.followSets g.firstSets).passes ∧
    (g.followSets g.firstSets).sets.keys = g.nonterminals.keys ∧
    ∀ n, (∀ t, t ≠ endOfInput → (((g.followSets g.firstSets).get n).contains t = true ↔
        ∃ c ∈ g.nonterminals.keys, ∃ before after,
          g.Derives [.nonterminal c] (before ++ .nonterminal n :: .terminal t :: after))) ∧
      (((g.followSets g.firstSets).get n).contains endOfInput = true ↔
        ∃ before, g.Derives [.nonterminal g.start] (before ++ [.nonterminal n])) := by
  have hwf := hg.wellFormed
  refine ⟨settles_followSets hwf, (followSets_fixed hwf).2.keys, fun n => ⟨?_, ?_⟩⟩
  · intro t ht
    rw [contains_followSets_iff hwf, Grammar.Precedes.terminal_iff ht]
  · rw [contains_followSets_iff hwf, Grammar.Precedes.endOfInput_iff hwf]

/-- What follows `A` comes from the vanishing `B` after it, from the recursion of `B` and from
`U`, which is out of reach and derives no string of terminals. -/
theorem followSets_exact_nullable_suffix : ∃ g,
    Grammar.ofSource "S, A, B, U\na, b, c\nS -> A B\nA -> A a | ε\nB -> b A B | ε\nU -> A c U\n" =
        .ok g ∧
      (∃ before, g.Derives [.nonterminal 0] (before ++ [.nonterminal 1])) ∧
      (∃ c ∈ g.nonterminals.keys, ∃ before after,
        g.Derives [.nonterminal c] (before ++ .nonterminal 1 :: .terminal 3 :: after)) ∧
      ¬ ∃ c ∈ g.nonterminals.keys, ∃ before after,
        g.Derives [.nonterminal c] (before ++ .nonterminal 2 :: .terminal 2 :: after) := by
  obtain ⟨g, hg, hcheck⟩ := Grammar.exists_ofSource
    "S, A, B, U\na, b, c\nS -> A B\nA -> A a | ε\nB -> b A B | ε\nU -> A c U\n"
    (fun g => decide (g.start = 0 ∧
      ((g.followSets g.firstSets).get 1).contains endOfInput = true ∧
      ((g.followSets g.firstSets).get 1).contains 3 = true ∧
      ¬ ((g.followSets g.firstSets).get 2).contains 2 = true)) (by decide +kernel)
  obtain ⟨hstart, hend, hc, hb⟩ := of_decide_eq_true hcheck
  obtain ⟨-, -, hexact⟩ := followSets_exact (.inr ⟨_, hg⟩)
  refine ⟨g, hg, ?_, ((hexact 1).1 3 (by decide)).mp hc, ?_⟩
  · have hlast := (hexact 1).2.mp hend
    rwa [hstart] at hlast
  · exact mt ((hexact 2).1 2 (by decide)).mpr hb

end ShiftReduce
