import ShiftReduce.Grammar.Follow
import ShiftReduce.Proofs.Grammar.FirstSets

/-! # FOLLOW sets miss nothing

- `settles_followSets`: the passes come to an end.
- `followSets_first`, `followSets_head`: the two demands of a nonterminal in a
  body, by what comes after it in the body and by what follows the head.
- `followSets_of_derives`: what stands after a nonterminal in any string that a
  nonterminal derives is in its FOLLOW set.
-/

namespace ShiftReduce

variable {g : Grammar}

/-! ## The passes -/

/-- The sets hold the end of the input for the start symbol. -/
structure HoldsEnd (g : Grammar) (m : TerminalSets) : Prop extends TerminalSets.For g m where
  seed : (m.get g.start).contains endOfInput = true

theorem HoldsEnd.grow {m : TerminalSets} (h : HoldsEnd g m) {n : NonterminalId}
    {s : TerminalSet} (hn : n ∈ g.nonterminals.keys)
    (hs : ∀ t, s.contains t = true → t ∈ g.terminals.keys) : HoldsEnd g (m.grow n s) where
  toFor := h.toFor.grow hn hs
  seed := TerminalSets.contains_grow h.seed

theorem holdsEnd_followSeed (hg : g.WellFormed) : HoldsEnd g (followSeed g) where
  toFor := by
    apply (TerminalSets.for_const hg).grow hg.start
    intro t ht
    rw [TerminalSet.contains_insert, TerminalSet.contains_empty, Bool.false_or,
      decide_eq_true_eq] at ht
    subst ht
    exact OrderedMap.mem_keys.mpr ⟨_, OrderedMap.mem_entries_of_find? hg.end_of_input⟩
  seed := by
    rw [followSeed, TerminalSets.contains_grow_self, TerminalSet.contains_insert]
    simp

/-- FIRST of a part of a body holds declared terminals only. -/
theorem declared_of_ofSymbols (hg : g.WellFormed) {r : Rule} (hr : r ∈ g.rules.values)
    {rest : List Symbol} (hrest : rest ⊆ r.body) {t : TerminalId}
    (ht : (g.firstSets.ofSymbols rest).terminals.contains t = true) :
    t ∈ g.terminals.keys := by
  obtain ⟨s, hs, hst⟩ := FirstSets.contains_ofSymbols.mp ht
  cases s with
  | terminal u =>
      rw [FirstSets.terminalsOf, TerminalSet.contains_insert, TerminalSet.contains_empty,
        Bool.false_or, decide_eq_true_eq] at hst
      subst hst
      exact hg.terminal_declared hr (hrest (leadingSymbols_subset _ _ hs))
  | nonterminal n => exact (firstSets_fixed hg).2.declared n t hst

section

variable {b : NonterminalId} {rest : List Symbol} {m : TerminalSets}

theorem HoldsEnd.keep_followAfter (hm : HoldsEnd g m) (head : NonterminalId)
    (hb : b ∈ g.nonterminals.keys)
    (hrest : ∀ t, (g.firstSets.ofSymbols rest).terminals.contains t = true →
      t ∈ g.terminals.keys) : HoldsEnd g (followAfter g.firstSets head b rest m) := by
  have h1 := hm.grow hb hrest
  unfold followAfter
  dsimp only
  split
  · exact h1.grow hb (h1.declared head)
  · exact h1

theorem HoldsEnd.grows_followAfter (hm : HoldsEnd g m) (head : NonterminalId)
    (hb : b ∈ g.nonterminals.keys)
    (hrest : ∀ t, (g.firstSets.ofSymbols rest).terminals.contains t = true →
      t ∈ g.terminals.keys) :
    Grows (TerminalSets.members g) m (followAfter g.firstSets head b rest m) := by
  have h1 := hm.toFor.grows hb hrest
  have h2 := hm.grow hb hrest
  unfold followAfter
  dsimp only
  split
  · exact h1.trans (h2.toFor.grows hb (h2.declared head))
  · exact h1

/-- What a visit that changes nothing says about the sets. -/
theorem HoldsEnd.demands_of_fixed (hm : HoldsEnd g m) {head : NonterminalId}
    (hb : b ∈ g.nonterminals.keys)
    (hrest : ∀ t, (g.firstSets.ofSymbols rest).terminals.contains t = true →
      t ∈ g.terminals.keys) (hfix : followAfter g.firstSets head b rest m = m) :
    (∀ t, (g.firstSets.ofSymbols rest).terminals.contains t = true →
      (m.get b).contains t = true) ∧
    (rest.all g.firstSets.isNullable = true → ∀ t, (m.get head).contains t = true →
      (m.get b).contains t = true) := by
  have h1 := hm.toFor.grows hb hrest
  have h2 := hm.grow hb hrest
  rw [← FirstSets.nullable_ofSymbols]
  unfold followAfter at hfix
  by_cases hhead : b = head
  · have hsame : m.grow b (g.firstSets.ofSymbols rest).terminals = m := by
      simpa [hhead] using hfix
    exact ⟨fun t ht => TerminalSets.contains_of_grow_eq hsame ht, fun _ t ht => hhead ▸ ht⟩
  · cases hnull : (g.firstSets.ofSymbols rest).nullable with
    | false =>
        have hsame : m.grow b (g.firstSets.ofSymbols rest).terminals = m := by
          simpa [hnull] using hfix
        exact ⟨fun t ht => TerminalSets.contains_of_grow_eq hsame ht, fun h => nomatch h⟩
    | true =>
        simp only [hnull, Bool.true_and, decide_eq_true_eq, hhead, not_false_eq_true, ne_eq,
          if_true] at hfix
        have hsame := h1.fixed (h2.toFor.grows hb (h2.declared head)) hfix
        rw [hsame] at hfix
        exact ⟨fun t ht => TerminalSets.contains_of_grow_eq hsame ht,
          fun _ t ht => TerminalSets.contains_of_grow_eq hfix ht⟩

end

/-! Going through a body, at a place where `rest` is still to come. -/

section

variable {r : Rule} {rest : List Symbol} {m : TerminalSets}

theorem HoldsEnd.keep_followBody (hg : g.WellFormed) (hr : r ∈ g.rules.values)
    (hrest : rest ⊆ r.body) (hm : HoldsEnd g m) :
    HoldsEnd g (followBody g.firstSets r.head rest m) ∧
      Grows (TerminalSets.members g) m (followBody g.firstSets r.head rest m) := by
  induction rest generalizing m with
  | nil => exact ⟨hm, .refl m⟩
  | cons s rest ih =>
      rw [List.cons_subset] at hrest
      cases s with
      | terminal t => exact ih hrest.2 hm
      | nonterminal b =>
          have hb := hg.nonterminal_declared hr hrest.1
          have hfirst : ∀ t, (g.firstSets.ofSymbols rest).terminals.contains t = true →
              t ∈ g.terminals.keys := fun t ht => declared_of_ofSymbols hg hr hrest.2 ht
          have h1 := ih hrest.2 (hm.keep_followAfter r.head hb hfirst)
          exact ⟨h1.1, (hm.grows_followAfter r.head hb hfirst).trans h1.2⟩

theorem HoldsEnd.demands_of_followBody (hg : g.WellFormed) (hr : r ∈ g.rules.values)
    (hrest : rest ⊆ r.body) (hm : HoldsEnd g m)
    (hfix : followBody g.firstSets r.head rest m = m) {before after : List Symbol}
    {b : NonterminalId} (hsplit : rest = before ++ .nonterminal b :: after) :
    (∀ t, (g.firstSets.ofSymbols after).terminals.contains t = true →
      (m.get b).contains t = true) ∧
    (after.all g.firstSets.isNullable = true → ∀ t, (m.get r.head).contains t = true →
      (m.get b).contains t = true) := by
  induction rest generalizing before with
  | nil => simp at hsplit
  | cons s rest ih =>
      rw [List.cons_subset] at hrest
      cases s with
      | terminal t =>
          cases before with
          | nil => simp at hsplit
          | cons s' before =>
              rw [List.cons_append, List.cons.injEq] at hsplit
              exact ih hrest.2 hfix hsplit.2
      | nonterminal c =>
          have hc := hg.nonterminal_declared hr hrest.1
          have hfirst : ∀ t, (g.firstSets.ofSymbols rest).terminals.contains t = true →
              t ∈ g.terminals.keys := fun t ht => declared_of_ofSymbols hg hr hrest.2 ht
          have h1 := hm.grows_followAfter r.head hc hfirst
          have h2 := HoldsEnd.keep_followBody hg hr hrest.2 (hm.keep_followAfter r.head hc hfirst)
          -- if the whole visit changes nothing, neither does its part at this place
          have hsame := h1.fixed h2.2 hfix
          cases before with
          | nil =>
              rw [List.nil_append, List.cons.injEq, Symbol.nonterminal.injEq] at hsplit
              obtain ⟨rfl, rfl⟩ := hsplit
              exact hm.demands_of_fixed hc hfirst hsame
          | cons s' before =>
              rw [List.cons_append, List.cons.injEq] at hsplit
              rw [followBody, hsame] at hfix
              exact ih hrest.2 hfix hsplit.2

end

theorem keep_body (hg : g.WellFormed) (m : TerminalSets) :
    ∀ r ∈ g.rules.values, HoldsEnd g m →
      HoldsEnd g (followBody g.firstSets r.head r.body m) :=
  fun _ hr hm => (hm.keep_followBody hg hr (List.Subset.refl _)).1

theorem grows_body (hg : g.WellFormed) (m : TerminalSets) :
    ∀ r ∈ g.rules.values, HoldsEnd g m →
      Grows (TerminalSets.members g) m (followBody g.firstSets r.head r.body m) :=
  fun _ hr hm => (hm.keep_followBody hg hr (List.Subset.refl _)).2

/-- The passes come to an end by themselves: each adds a terminal or is the last one. -/
theorem settles_followSets (hg : g.WellFormed) :
    Settles (followPass g g.firstSets) (followSeed g) (g.followSets g.firstSets).sets
      (g.followSets g.firstSets).passes := by
  have hbound := TerminalSets.members_lt_growthBound g
  show Settles _ _ (settle (followPass g g.firstSets) (growthBound g) _).1 _
  refine settles_settle (TerminalSets.members g) (growthBound g - 1) ?_ ?_ ?_
    (holdsEnd_followSeed hg) ?_
  · intro m hm
    exact foldl_kept (keep_body hg) hm
  · intro m hm
    exact foldl_grows (keep_body hg) (grows_body hg) hm
  · intro m _
    exact Nat.le_sub_one_of_lt (hbound m)
  · have := hbound (followSeed g)
    omega

theorem followSets_fixed (hg : g.WellFormed) :
    followPass g g.firstSets (g.followSets g.firstSets).sets =
        (g.followSets g.firstSets).sets ∧
      HoldsEnd g (g.followSets g.firstSets).sets := by
  have h := settles_followSets hg
  exact ⟨h.step_eq, h.kept (fun m hm => foldl_kept (keep_body hg) hm) (holdsEnd_followSeed hg)⟩

/-! ## The two demands -/

theorem followSets_demands (hg : g.WellFormed) {n b : NonterminalId}
    {before after : List Symbol} (hp : g.Produces n (before ++ .nonterminal b :: after)) :
    (∀ t, (g.firstSets.ofSymbols after).terminals.contains t = true →
      ((g.followSets g.firstSets).get b).contains t = true) ∧
    (after.all g.firstSets.isNullable = true → ∀ t,
      ((g.followSets g.firstSets).get n).contains t = true →
      ((g.followSets g.firstSets).get b).contains t = true) := by
  obtain ⟨r, hr, rfl, hbody⟩ := hp
  obtain ⟨hfix, hm⟩ := followSets_fixed hg
  have hsame : followBody g.firstSets r.head r.body (g.followSets g.firstSets).sets =
      (g.followSets g.firstSets).sets :=
    foldl_fixed (keep_body hg) (grows_body hg) hm hfix r hr
  exact hm.demands_of_followBody hg hr (List.Subset.refl _) hsame hbody

theorem followSets_first (hg : g.WellFormed) {n b : NonterminalId}
    {before after : List Symbol} (hp : g.Produces n (before ++ .nonterminal b :: after))
    {t : TerminalId} (ht : (g.firstSets.ofSymbols after).terminals.contains t = true) :
    ((g.followSets g.firstSets).get b).contains t = true :=
  (followSets_demands hg hp).1 t ht

theorem followSets_head (hg : g.WellFormed) {n b : NonterminalId}
    {before after : List Symbol} (hp : g.Produces n (before ++ .nonterminal b :: after))
    (hnull : after.all g.firstSets.isNullable = true) {t : TerminalId}
    (ht : ((g.followSets g.firstSets).get n).contains t = true) :
    ((g.followSets g.firstSets).get b).contains t = true :=
  (followSets_demands hg hp).2 hnull t ht

theorem followSets_start (hg : g.WellFormed) :
    ((g.followSets g.firstSets).get g.start).contains endOfInput = true :=
  (followSets_fixed hg).2.seed

/-! ## FOLLOW sets and derivations -/

/-- In a string, what can come after each nonterminal is in its FOLLOW set, and
so is what follows `c` if the nonterminal can come last. -/
def FollowsWithin (g : Grammar) (c : NonterminalId) (u : List Symbol) : Prop :=
  ∀ before b after, u = before ++ .nonterminal b :: after →
    (∀ t, (g.firstSets.ofSymbols after).terminals.contains t = true →
      ((g.followSets g.firstSets).get b).contains t = true) ∧
    (after.all g.firstSets.isNullable = true → ∀ t,
      ((g.followSets g.firstSets).get c).contains t = true →
      ((g.followSets g.firstSets).get b).contains t = true)

theorem followsWithin_single (g : Grammar) (c : NonterminalId) :
    FollowsWithin g c [.nonterminal c] := by
  intro before b after h
  cases before with
  | nil =>
      rw [List.nil_append, List.cons.injEq, Symbol.nonterminal.injEq] at h
      obtain ⟨rfl, rfl⟩ := h
      refine ⟨?_, fun _ _ ht => ht⟩
      intro t ht
      rw [FirstSets.ofSymbols, TerminalSet.contains_empty] at ht
      cases ht
  | cons s before => simp at h

theorem FollowsWithin.expands (hg : g.WellFormed) {c : NonterminalId} {u v : List Symbol}
    (h : FollowsWithin g c u) (huv : g.Expands u v) : FollowsWithin g c v := by
  cases huv with
  | @rule x y n body hp =>
      obtain ⟨hfirst, hlast⟩ := h x n y rfl
      intro before b after hsplit
      rw [List.append_assoc] at hsplit
      rcases append_eq_append_cons hsplit with ⟨w, rfl, rfl⟩ | ⟨w, rfl, hw⟩
      · -- the nonterminal stands before the body, which its own FIRST set covers
        obtain ⟨hf, hl⟩ := h before b (w ++ .nonterminal n :: y) (by simp)
        have hsub := firstSets_of_yields hg (Grammar.derives_iff_yields.mp
          (Relation.ReflTransGen.single (Grammar.Expands.rule w y hp)))
        rw [List.append_assoc] at hsub
        exact ⟨fun t ht => hf t (hsub.2 t ht), fun hnull => hl (hsub.1 hnull)⟩
      · rcases append_eq_append_cons hw with ⟨w', rfl, rfl⟩ | ⟨w', rfl, rfl⟩
        · -- it stands in the body
          constructor
          · intro t ht
            rcases FirstSets.contains_ofSymbols_append.mp ht with ht | ⟨hnull, ht⟩
            · exact followSets_first hg hp ht
            · exact followSets_head hg hp hnull (hfirst t ht)
          · intro hnull t ht
            rw [List.all_append, Bool.and_eq_true] at hnull
            exact followSets_head hg hp hnull.1 (hlast hnull.2 t ht)
        · -- it stands after the body
          exact h (x ++ .nonterminal n :: w') b after (by simp)

theorem followsWithin_of_derives (hg : g.WellFormed) {c : NonterminalId} {u : List Symbol}
    (h : g.Derives [.nonterminal c] u) : FollowsWithin g c u := by
  induction h with
  | refl => exact followsWithin_single g c
  | tail _ h1 ih => exact ih.expands hg h1

/-- What some derived string has right after a nonterminal is in its FOLLOW set. -/
theorem followSets_of_derives (hg : g.WellFormed) {c b : NonterminalId}
    {before after : List Symbol} {t : TerminalId}
    (h : g.Derives [.nonterminal c] (before ++ .nonterminal b :: .terminal t :: after)) :
    ((g.followSets g.firstSets).get b).contains t = true :=
  (followsWithin_of_derives hg h before b (.terminal t :: after) rfl).1 t
    (ofSymbols_terminal g.firstSets t after)

end ShiftReduce
