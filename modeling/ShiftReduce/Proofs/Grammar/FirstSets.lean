import ShiftReduce.Proofs.Grammar.TerminalSets
import ShiftReduce.Proofs.Grammar.Yields

/-! # FIRST sets miss nothing

- `NullableIds`: the invariant of the search for nullable nonterminals.
- `settles_nullableNonterminals`, `settles_firstSets`: the passes come to an end.
- `mem_nullable_of_body`: the head of a rule whose body is found to be nullable is
  found to be nullable.
- `firstSets_body`: what a body can start with, its head can start with.
- `isNullable_of_derives`: all symbols that can vanish are found to be nullable.
- `ofSymbols_of_derives`: a string that is derived has no more in its FIRST set
  than the string it is derived from.
-/

namespace ShiftReduce

variable {g : Grammar}

/-! ## Nullable nonterminals -/

/-- Declared nonterminals that derive the empty string, none twice. -/
structure NullableIds (g : Grammar) (ns : List NonterminalId) : Prop where
  nodup : ns.Nodup
  declared : ∀ n ∈ ns, n ∈ g.nonterminals.keys
  vanish : ∀ n ∈ ns, g.IsNullable [.nonterminal n]

namespace NullableIds

variable {ns : List NonterminalId}

/-- A string of members vanishes symbol by symbol. -/
theorem isNullable (h : NullableIds g ns) {ss : List Symbol}
    (hss : ss.all (isNullableIn ns) = true) : g.IsNullable ss := by
  induction ss with
  | nil => exact .refl
  | cons s ss ih =>
      rw [List.all_cons, Bool.and_eq_true] at hss
      cases s with
      | terminal t => cases hss.1
      | nonterminal n =>
          have hn := h.vanish n (List.contains_iff_mem.mp hss.1)
          exact Grammar.Derives.append (u := [_]) hn (ih hss.2)

theorem seed (hg : g.WellFormed) : NullableIds g (nullableSeed g) := by
  have hmem : ∀ n ∈ nullableSeed g, ∃ r ∈ g.rules.values, r.body = [] ∧ r.head = n := by
    intro n hn
    simpa [nullableSeed, mem_addNew, and_assoc] using hn
  refine ⟨nodup_addNew List.nodup_nil, ?_, ?_⟩
  · intro n hn
    obtain ⟨r, hr, -, rfl⟩ := hmem n hn
    exact hg.heads r hr
  · intro n hn
    obtain ⟨r, hr, hbody, rfl⟩ := hmem n hn
    exact Grammar.Produces.derives ⟨r, hr, rfl, hbody⟩

/-- What one rule does: its head is new and is added, or nothing happens. -/
theorem add_cases (ns : List NonterminalId) (r : Rule) :
    addNullable ns r = ns ∨
      (r.head ∉ ns ∧ r.body.all (isNullableIn ns) = true ∧ addNullable ns r = ns ++ [r.head]) := by
  unfold addNullable
  split
  · exact .inl rfl
  · next hnew =>
      split
      · next hbody => exact .inr ⟨fun h => hnew (List.contains_iff_mem.mpr h), hbody, rfl⟩
      · exact .inl rfl

theorem add (hg : g.WellFormed) (h : NullableIds g ns) {r : Rule} (hr : r ∈ g.rules.values) :
    NullableIds g (addNullable ns r) := by
  rcases add_cases ns r with he | ⟨hnew, hbody, he⟩
  · rw [he]
    exact h
  · rw [he]
    have hhead : g.IsNullable [.nonterminal r.head] :=
      Relation.ReflTransGen.trans (Grammar.Produces.derives ⟨r, hr, rfl, rfl⟩)
        (h.isNullable hbody)
    have hnodup : (ns ++ [r.head]).Nodup := by
      rw [← List.concat_eq_append]
      exact h.nodup.concat hnew
    refine ⟨hnodup, ?_, ?_⟩
    · simp only [List.forall_mem_append, List.forall_mem_singleton]
      exact ⟨h.declared, hg.heads r hr⟩
    · simp only [List.forall_mem_append, List.forall_mem_singleton]
      exact ⟨h.vanish, hhead⟩

theorem add_grows (ns : List NonterminalId) (r : Rule) :
    Grows List.length ns (addNullable ns r) := by
  rcases add_cases ns r with he | ⟨-, -, he⟩
  · exact .inl he
  · right
    rw [he, List.length_append]
    exact Nat.lt_succ_self _

theorem length_le (h : NullableIds g ns) : ns.length ≤ g.nonterminals.size := by
  have hle := (h.nodup.subperm h.declared).length_le
  rwa [OrderedMap.keys, List.length_map] at hle

end NullableIds

/-- The passes come to an end by themselves: each adds a nonterminal or is the last one. -/
theorem settles_nullableNonterminals (hg : g.WellFormed) :
    ∃ k, Settles (nullablePass g) (nullableSeed g) (nullableNonterminals g) k := by
  refine ⟨_, settles_settle List.length g.nonterminals.size ?_ ?_ ?_ (NullableIds.seed hg) ?_⟩
  · intro ns h
    exact foldl_kept (fun _ _ hr hk => hk.add hg hr) h
  · intro ns h
    exact foldl_grows (fun _ _ hr hk => hk.add hg hr)
      (fun ns r _ _ => NullableIds.add_grows ns r) h
  · intro ns h
    exact h.length_le
  · omega

theorem nullableIds_nullableNonterminals (hg : g.WellFormed) :
    NullableIds g (nullableNonterminals g) := by
  obtain ⟨k, h⟩ := settles_nullableNonterminals hg
  exact h.kept (fun ns hns => foldl_kept (fun _ _ hr hk => hk.add hg hr) hns)
    (NullableIds.seed hg)

/-- No rule adds anything to what is found. -/
theorem addNullable_fixed (hg : g.WellFormed) {r : Rule} (hr : r ∈ g.rules.values) :
    addNullable (nullableNonterminals g) r = nullableNonterminals g := by
  obtain ⟨k, h⟩ := settles_nullableNonterminals hg
  exact foldl_fixed (fun _ _ hr hk => hk.add hg hr) (fun ns r _ _ => NullableIds.add_grows ns r)
    (nullableIds_nullableNonterminals hg) h.step_eq r hr

/-- The head of a rule is nullable if all of its body is. -/
theorem mem_nullable_of_body (hg : g.WellFormed) {n : NonterminalId} {body : List Symbol}
    (hp : g.Produces n body) (hbody : body.all (isNullableIn (nullableNonterminals g)) = true) :
    n ∈ nullableNonterminals g := by
  obtain ⟨r, hr, rfl, rfl⟩ := hp
  have hfixed := addNullable_fixed hg hr
  by_contra hnew
  have hadd : addNullable (nullableNonterminals g) r = nullableNonterminals g ++ [r.head] := by
    rw [addNullable, if_neg (by rwa [List.contains_iff_mem]), if_pos hbody]
  rw [hadd] at hfixed
  simp at hfixed

/-! ## Leading symbols -/

theorem leadingSymbols_subset (ns : List NonterminalId) :
    ∀ ss : List Symbol, leadingSymbols ns ss ⊆ ss
  | [] => List.Subset.refl []
  | s :: ss => by
      rw [leadingSymbols]
      split
      · exact List.cons_subset_cons s (leadingSymbols_subset ns ss)
      · exact List.cons_subset_cons s (List.nil_subset ss)

theorem leadingSymbols_append {ns : List NonterminalId} {before : List Symbol}
    (h : before.all (isNullableIn ns) = true) (ss : List Symbol) :
    leadingSymbols ns (before ++ ss) = before ++ leadingSymbols ns ss := by
  induction before with
  | nil => rfl
  | cons s before ih =>
      rw [List.all_cons, Bool.and_eq_true] at h
      rw [List.cons_append, leadingSymbols, if_pos h.1, ih h.2, List.cons_append]

theorem mem_ruleInclusions {ns : List NonterminalId} {r : Rule} {c : Inclusion} :
    c ∈ ruleInclusions ns r ↔ c.larger = r.head ∧ c.smaller ≠ r.head ∧
      .nonterminal c.smaller ∈ leadingSymbols ns r.body := by
  obtain ⟨larger, smaller⟩ := c
  simp only [ruleInclusions, List.mem_filterMap]
  constructor
  · rintro ⟨s, hs, h⟩
    split at h
    · cases h
    · next n =>
        split at h
        · cases h
        · next hn =>
            cases h
            exact ⟨rfl, hn, hs⟩
  · rintro ⟨rfl, hn, hs⟩
    exact ⟨_, hs, if_neg hn⟩

theorem mem_ruleTerminals {ns : List NonterminalId} {r : Rule} {t : TerminalId} :
    t ∈ ruleTerminals ns r ↔ .terminal t ∈ leadingSymbols ns r.body := by
  simp only [ruleTerminals, List.mem_filterMap]
  constructor
  · rintro ⟨s, hs, h⟩
    split at h
    · cases h
      exact hs
    · cases h
  · intro h
    exact ⟨_, h, rfl⟩

namespace FirstSets

variable {f : FirstSets}

theorem contains_ofSymbols {ss : List Symbol} {t : TerminalId} :
    (f.ofSymbols ss).terminals.contains t = true ↔
      ∃ s ∈ leadingSymbols f.nullable ss, (f.terminalsOf s).contains t = true := by
  induction ss with
  | nil => simp [ofSymbols, leadingSymbols, TerminalSet.contains_empty]
  | cons s ss ih =>
      rw [ofSymbols, leadingSymbols]
      show (if isNullableIn f.nullable s then _ else _ : FirstSet).terminals.contains t = true ↔ _
      split
      · rw [TerminalSet.contains_union, Bool.or_eq_true, ih, List.exists_mem_cons_iff]
      · simp

theorem nullable_ofSymbols {ss : List Symbol} :
    (f.ofSymbols ss).nullable = ss.all f.isNullable := by
  induction ss with
  | nil => rfl
  | cons s ss ih =>
      rw [ofSymbols, List.all_cons]
      cases f.isNullable s with
      | false => rfl
      | true => exact ih

theorem contains_ofSymbols_cons {s : Symbol} {ss : List Symbol} {t : TerminalId} :
    (f.ofSymbols (s :: ss)).terminals.contains t = true ↔
      (f.terminalsOf s).contains t = true ∨
        f.isNullable s = true ∧ (f.ofSymbols ss).terminals.contains t = true := by
  rw [ofSymbols]
  split
  · next h => simp [TerminalSet.contains_union, h]
  · next h => simp [h]

theorem contains_ofSymbols_append {ss ss' : List Symbol} {t : TerminalId} :
    (f.ofSymbols (ss ++ ss')).terminals.contains t = true ↔
      (f.ofSymbols ss).terminals.contains t = true ∨
        ss.all f.isNullable = true ∧ (f.ofSymbols ss').terminals.contains t = true := by
  induction ss with
  | nil => simp [ofSymbols, TerminalSet.contains_empty]
  | cons s ss ih =>
      rw [List.cons_append, contains_ofSymbols_cons, ih, contains_ofSymbols_cons, List.all_cons,
        Bool.and_eq_true]
      tauto

end FirstSets

/-! ## The passes -/

/-- The sets hold what the rules put there by themselves. -/
structure HoldsSeed (g : Grammar) (m : TerminalSets) : Prop extends TerminalSets.For g m where
  seed : ∀ r ∈ g.rules.values, ∀ t ∈ ruleTerminals (nullableNonterminals g) r,
    (m.get r.head).contains t = true

theorem Grammar.WellFormed.terminal_declared (hg : g.WellFormed) {r : Rule}
    (hr : r ∈ g.rules.values) {t : TerminalId} (ht : .terminal t ∈ r.body) :
    t ∈ g.terminals.keys :=
  (hg.bodies r hr _ ht).2

theorem Grammar.WellFormed.nonterminal_declared (hg : g.WellFormed) {r : Rule}
    (hr : r ∈ g.rules.values) {n : NonterminalId} (hn : .nonterminal n ∈ r.body) :
    n ∈ g.nonterminals.keys :=
  hg.bodies r hr _ hn

theorem holdsSeed_firstSeed (hg : g.WellFormed) :
    HoldsSeed g (firstSeed g (nullableNonterminals g)) where
  toFor := by
    refine foldl_kept ?_ (TerminalSets.for_const hg)
    intro m r hr hm
    apply hm.grow (hg.heads r hr)
    intro t ht
    rw [TerminalSet.contains_ofList, mem_ruleTerminals] at ht
    exact hg.terminal_declared hr (leadingSymbols_subset _ _ ht)
  seed := by
    intro r hr t ht
    exact TerminalSets.contains_foldl_grow
      (.inr ⟨r, hr, rfl, TerminalSet.contains_ofList.mpr ht⟩)

theorem HoldsSeed.grow {m : TerminalSets} (h : HoldsSeed g m) {n : NonterminalId}
    {s : TerminalSet} (hn : n ∈ g.nonterminals.keys)
    (hs : ∀ t, s.contains t = true → t ∈ g.terminals.keys) : HoldsSeed g (m.grow n s) where
  toFor := h.toFor.grow hn hs
  seed := fun r hr t ht => TerminalSets.contains_grow (h.seed r hr t ht)

/-- All inclusions that the rules of a grammar ask for. -/
def allInclusions (g : Grammar) : List Inclusion :=
  g.rules.values.flatMap (ruleInclusions (nullableNonterminals g))

theorem larger_declared (hg : g.WellFormed) {c : Inclusion} (hc : c ∈ allInclusions g) :
    c.larger ∈ g.nonterminals.keys := by
  obtain ⟨r, hr, hc⟩ := List.mem_flatMap.mp hc
  rw [(mem_ruleInclusions.mp hc).1]
  exact hg.heads r hr

theorem keep_inclusion (hg : g.WellFormed) (m : TerminalSets) :
    ∀ c ∈ allInclusions g, HoldsSeed g m →
      HoldsSeed g (m.grow c.larger (m.get c.smaller)) :=
  fun c hc hm => hm.grow (larger_declared hg hc) (hm.declared c.smaller)

theorem grows_inclusion (hg : g.WellFormed) (m : TerminalSets) :
    ∀ c ∈ allInclusions g, HoldsSeed g m →
      Grows (TerminalSets.members g) m (m.grow c.larger (m.get c.smaller)) :=
  fun c hc hm => hm.toFor.grows (larger_declared hg hc) (hm.declared c.smaller)

/-- The passes come to an end by themselves: each adds a terminal or is the last one. -/
theorem settles_firstSets (hg : g.WellFormed) :
    Settles (firstPass (allInclusions g)) (firstSeed g (nullableNonterminals g))
      g.firstSets.sets g.firstSets.rounds := by
  have hbound := TerminalSets.members_lt_growthBound g
  show Settles _ _ (settle (firstPass (allInclusions g)) (growthBound g) _).1 _
  refine settles_settle (TerminalSets.members g) (growthBound g - 1) ?_ ?_ ?_
    (holdsSeed_firstSeed hg) ?_
  · intro m hm
    exact foldl_kept (keep_inclusion hg) hm
  · intro m hm
    exact foldl_grows (keep_inclusion hg) (grows_inclusion hg) hm
  · intro m _
    exact Nat.le_sub_one_of_lt (hbound m)
  · have := hbound (firstSeed g (nullableNonterminals g))
    omega

/-- The last pass changes nothing. -/
theorem firstSets_fixed (hg : g.WellFormed) :
    firstPass (allInclusions g) g.firstSets.sets = g.firstSets.sets ∧
      HoldsSeed g g.firstSets.sets := by
  have h := settles_firstSets hg
  exact ⟨h.step_eq, h.kept (fun m hm => foldl_kept (keep_inclusion hg) hm)
    (holdsSeed_firstSeed hg)⟩

theorem firstSets_inclusion (hg : g.WellFormed) {c : Inclusion} (hc : c ∈ allInclusions g)
    {t : TerminalId} (ht : (g.firstSets.sets.get c.smaller).contains t = true) :
    (g.firstSets.sets.get c.larger).contains t = true := by
  obtain ⟨hfix, hkept⟩ := firstSets_fixed hg
  have hsame := foldl_fixed (keep_inclusion hg) (grows_inclusion hg) hkept hfix c hc
  exact TerminalSets.contains_of_grow_eq hsame ht

/-! ## FIRST sets and derivations -/

/-- What the body of a rule can start with, its head can start with. -/
theorem firstSets_body (hg : g.WellFormed) {n : NonterminalId} {body : List Symbol}
    (hp : g.Produces n body) {t : TerminalId}
    (ht : (g.firstSets.ofSymbols body).terminals.contains t = true) :
    (g.firstSets.sets.get n).contains t = true := by
  obtain ⟨r, hr, rfl, rfl⟩ := hp
  obtain ⟨s, hs, hst⟩ := FirstSets.contains_ofSymbols.mp ht
  cases s with
  | terminal u =>
      rw [FirstSets.terminalsOf, TerminalSet.contains_insert, TerminalSet.contains_empty,
        Bool.false_or, decide_eq_true_eq] at hst
      subst hst
      exact (firstSets_fixed hg).2.seed r hr u (mem_ruleTerminals.mpr hs)
  | nonterminal m =>
      -- a head is not asked to include itself
      by_cases hm : m = r.head
      · exact hm ▸ hst
      · have hc : ⟨r.head, m⟩ ∈ allInclusions g :=
          List.mem_flatMap.mpr ⟨r, hr, mem_ruleInclusions.mpr ⟨rfl, hm, hs⟩⟩
        exact firstSets_inclusion hg hc hst

theorem firstSets_of_yields (hg : g.WellFormed) {us vs : List Symbol} (h : g.Yields us vs) :
    (vs.all g.firstSets.isNullable = true → us.all g.firstSets.isNullable = true) ∧
      ∀ t, (g.firstSets.ofSymbols vs).terminals.contains t = true →
        (g.firstSets.ofSymbols us).terminals.contains t = true := by
  -- both at once: what comes after a symbol counts only where the symbol can vanish
  induction h with
  | nil => exact ⟨id, fun _ => id⟩
  | keep s _ ih =>
      refine ⟨?_, ?_⟩
      · simp only [List.all_cons, Bool.and_eq_true]
        intro h
        exact ⟨h.1, ih.1 h.2⟩
      · intro t ht
        rw [FirstSets.contains_ofSymbols_cons] at ht ⊢
        exact ht.imp id fun h => ⟨h.1, ih.2 t h.2⟩
  | @replace n body us vs ws rule _ _ ih1 ih2 =>
      have hhead : vs.all g.firstSets.isNullable = true →
          g.firstSets.isNullable (.nonterminal n) = true := by
        intro hvs
        exact List.contains_iff_mem.mpr (mem_nullable_of_body hg rule (ih1.1 hvs))
      refine ⟨?_, ?_⟩
      · simp only [List.all_append, List.all_cons, Bool.and_eq_true]
        intro h
        exact ⟨hhead h.1, ih2.1 h.2⟩
      · intro t ht
        rw [FirstSets.contains_ofSymbols_append] at ht
        rw [FirstSets.contains_ofSymbols_cons]
        rcases ht with ht | ⟨hvs, ht⟩
        · exact .inl (firstSets_body hg rule (ih1.2 t ht))
        · exact .inr ⟨hhead hvs, ih2.2 t ht⟩

theorem isNullable_of_derives (hg : g.WellFormed) {ss : List Symbol} (h : g.IsNullable ss) :
    ss.all g.firstSets.isNullable = true :=
  (firstSets_of_yields hg (Grammar.derives_iff_yields.mp h)).1 rfl

theorem ofSymbols_of_derives (hg : g.WellFormed) {us vs : List Symbol} (h : g.Derives us vs)
    {t : TerminalId} (ht : (g.firstSets.ofSymbols vs).terminals.contains t = true) :
    (g.firstSets.ofSymbols us).terminals.contains t = true :=
  (firstSets_of_yields hg (Grammar.derives_iff_yields.mp h)).2 t ht

/-- A string starts with its first terminal. -/
theorem ofSymbols_terminal (f : FirstSets) (t : TerminalId) (ss : List Symbol) :
    (f.ofSymbols (.terminal t :: ss)).terminals.contains t = true := by
  rw [FirstSets.contains_ofSymbols_cons, FirstSets.terminalsOf, TerminalSet.contains_insert]
  simp

end ShiftReduce
