import ShiftReduce.Grammar.Cyclic
import ShiftReduce.Proofs.Grammar.FirstSets
import ShiftReduce.Search.Reachability

/-! # Nonterminals that derive themselves are found

- `mem_unitSteps`: a rule whose other symbols are nullable is a unit step.
- `reaches_of_yields`: what derives a single nonterminal holds one that reaches
  it by unit steps, and nullable symbols besides.
- `mem_cyclicNonterminals`: so a nonterminal that derives itself is reported.
- `mem_cyclicNonterminals_firstSets_iff`: and no other one is.
-/

namespace ShiftReduce

variable {g : Grammar}

/-! ## Unit steps -/

theorem mem_soleNonterminals {f : FirstSets} {body : List Symbol} {m : NonterminalId} :
    m ∈ soleNonterminals f body ↔ ∃ before after, body = before ++ .nonterminal m :: after ∧
      before.all f.isNullable = true ∧ after.all f.isNullable = true := by
  simp only [soleNonterminals, List.mem_filterMap, List.mem_range]
  constructor
  · rintro ⟨i, hi, h⟩
    unfold soleNonterminal? at h
    split at h
    · next n hn =>
        split at h
        · next hall =>
            cases h
            obtain ⟨hlt, hget⟩ := List.getElem?_eq_some_iff.mp hn
            have hbody : body = body.take i ++ .nonterminal m :: body.drop (i + 1) := by
              rw [← hget, List.getElem_cons_drop, List.take_append_drop]
            rw [List.eraseIdx_eq_take_drop_succ, List.all_append, Bool.and_eq_true] at hall
            exact ⟨_, _, hbody, hall.1, hall.2⟩
        · cases h
    · cases h
  · rintro ⟨before, after, rfl, hb, ha⟩
    refine ⟨before.length, by simp, ?_⟩
    have herase : (before ++ .nonterminal m :: after).eraseIdx before.length =
        before ++ after := by
      rw [List.eraseIdx_append_of_length_le (Nat.le_refl _), Nat.sub_self]
      rfl
    simp [soleNonterminal?, herase, List.all_append, hb, ha]

theorem mem_unitSteps {f : FirstSets} {n m : NonterminalId} :
    m ∈ unitSteps g f n ↔ ∃ before after, g.Produces n (before ++ .nonterminal m :: after) ∧
      before.all f.isNullable = true ∧ after.all f.isNullable = true := by
  simp only [unitSteps, Grammar.rulesOf, List.mem_flatMap, List.mem_filter, decide_eq_true_eq,
    mem_soleNonterminals]
  constructor
  · rintro ⟨r, ⟨hr, hhead⟩, before, after, hbody, hb, ha⟩
    exact ⟨before, after, ⟨r, hr, hhead, hbody⟩, hb, ha⟩
  · rintro ⟨before, after, ⟨r, hr, hhead, hbody⟩, hb, ha⟩
    exact ⟨r, ⟨hr, hhead⟩, before, after, hbody, hb, ha⟩

theorem unitSteps_declared (hg : g.WellFormed) {f : FirstSets} {n m : NonterminalId}
    (h : m ∈ unitSteps g f n) : m ∈ g.nonterminals.keys := by
  obtain ⟨before, after, hp, -, -⟩ := mem_unitSteps.mp h
  exact hp.allows hg _ (List.mem_append_right before List.mem_cons_self)

/-! ## Chains of unit steps -/

theorem all_nullable_of_yields (hg : g.WellFormed) {us : List Symbol} (h : g.Yields us []) :
    us.all g.firstSets.isNullable = true :=
  isNullable_of_derives hg h.derives

theorem reaches_of_yields (hg : g.WellFormed) {us vs : List Symbol} {m : NonterminalId}
    (h : g.Yields us vs) (hvs : vs = [.nonterminal m]) :
    ∃ before k after, us = before ++ .nonterminal k :: after ∧
      before.all g.firstSets.isNullable = true ∧ after.all g.firstSets.isNullable = true ∧
      Reaches (unitSteps g g.firstSets) k m := by
  induction h with
  | nil => cases hvs
  | @keep s us vs rest _ =>
      rw [List.cons.injEq] at hvs
      obtain ⟨rfl, rfl⟩ := hvs
      exact ⟨[], m, us, rfl, rfl, all_nullable_of_yields hg rest, .refl⟩
  | @replace n body us vs ws rule inner rest ih1 ih2 =>
      rcases List.append_eq_singleton_iff.mp hvs with ⟨rfl, hws⟩ | ⟨hone, rfl⟩
      · -- the first symbol vanishes
        obtain ⟨before, k, after, rfl, hb, ha, hk⟩ := ih2 hws
        have hn : g.firstSets.isNullable (.nonterminal n) = true := List.contains_iff_mem.mpr
          (mem_nullable_of_body hg rule (all_nullable_of_yields hg inner))
        exact ⟨.nonterminal n :: before, k, after, rfl, by rw [List.all_cons, hn, hb]; rfl, ha, hk⟩
      · -- the first symbol is the one that stays
        obtain ⟨before, k, after, rfl, hb, ha, hk⟩ := ih1 hone
        have hstep : k ∈ unitSteps g g.firstSets n :=
          mem_unitSteps.mpr ⟨before, after, rule, hb, ha⟩
        exact ⟨[], n, us, rfl, rfl, all_nullable_of_yields hg rest, hk.head hstep⟩

theorem mem_cyclicNonterminals_iff (hg : g.WellFormed) {f : FirstSets} {n : NonterminalId} :
    n ∈ cyclicNonterminals g f ↔
      n ∈ g.nonterminals.keys ∧ ∃ m ∈ unitSteps g f n, Reaches (unitSteps g f) m n := by
  have hlen : g.nonterminals.keys.length ≤ g.nonterminals.size := by
    simp [OrderedMap.keys, OrderedMap.size]
  simp only [cyclicNonterminals, List.mem_filter, List.contains_iff_mem]
  rw [mem_reachable_iff (fun _ _ _ => unitSteps_declared hg) (fun _ => unitSteps_declared hg)
    hlen]

theorem mem_cyclicNonterminals (hg : g.WellFormed) {n : NonterminalId}
    (h : g.DerivesProperly [.nonterminal n] [.nonterminal n]) :
    n ∈ cyclicNonterminals g g.firstSets := by
  obtain ⟨vs, hfirst, hrest⟩ := Relation.TransGen.head'_iff.mp h
  have hp := hfirst.produces
  obtain ⟨before, k, after, rfl, hb, ha, hk⟩ :=
    reaches_of_yields hg (Grammar.derives_iff_yields.mp hrest) rfl
  exact (mem_cyclicNonterminals_iff hg).mpr
    ⟨hp.declared hg, k, mem_unitSteps.mpr ⟨before, after, hp, hb, ha⟩, hk⟩

/-! ## Nothing else is reported -/

theorem derivesProperly_of_mem_unitSteps (hg : g.WellFormed) {n m : NonterminalId}
    (h : m ∈ unitSteps g g.firstSets n) :
    g.DerivesProperly [.nonterminal n] [.nonterminal m] := by
  obtain ⟨before, after, hp, hb, ha⟩ := mem_unitSteps.mp h
  have hbefore : g.IsNullable before := (nullableIds_nullableNonterminals hg).isNullable hb
  have hafter : g.IsNullable after := (nullableIds_nullableNonterminals hg).isNullable ha
  have hvanish : g.Derives ((before ++ [.nonterminal m]) ++ after)
      (([] ++ [.nonterminal m]) ++ []) :=
    Grammar.Derives.append (Grammar.Derives.append hbefore .refl) hafter
  rw [List.append_assoc, List.singleton_append, List.nil_append, List.append_nil] at hvanish
  exact Relation.TransGen.head' hp.expands hvanish

theorem derives_of_reaches (hg : g.WellFormed) {n m : NonterminalId}
    (h : Reaches (unitSteps g g.firstSets) n m) :
    g.Derives [.nonterminal n] [.nonterminal m] := by
  induction h with
  | refl => exact .refl
  | tail _ hstep ih =>
      exact Relation.ReflTransGen.trans ih
        (derivesProperly_of_mem_unitSteps hg hstep).to_reflTransGen

/-- The nonterminals that are reported are those that derive themselves. -/
theorem mem_cyclicNonterminals_firstSets_iff (hg : g.WellFormed) {n : NonterminalId} :
    n ∈ cyclicNonterminals g g.firstSets ↔
      g.DerivesProperly [.nonterminal n] [.nonterminal n] := by
  constructor
  · intro h
    obtain ⟨-, m, hm, hreach⟩ := (mem_cyclicNonterminals_iff hg).mp h
    exact (derivesProperly_of_mem_unitSteps hg hm).trans_left (derives_of_reaches hg hreach)
  · exact mem_cyclicNonterminals hg

end ShiftReduce
