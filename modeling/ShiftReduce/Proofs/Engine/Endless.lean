import ShiftReduce.Proofs.Automaton.Outlooks
import ShiftReduce.Proofs.Engine.Lookahead
import ShiftReduce.Proofs.Engine.Soundness
import ShiftReduce.Proofs.Grammar.Contractions

/-! # Endless runs

A run that does not end comes to a point from which on it only reduces. From then on
the stack is contracted forever, and what it grows by can vanish.

- `ParseTable.Endless`: the configurations of a run that does not halt.
- `Endless.exists_settled`: at some step the last token has been read.
- `Moves.contraction`: what a reduction does to the symbols.
- `Reducing`, `exists_reducing_of_endless`: from that step on the run only reduces; the
  symbols on its stack beside it.
- `Recurrence`: a stack below which the run never goes again and a later one above it,
  both of which wait for the same nonterminal.
- `exists_recurrence`: every endless run of reductions has one, if no marker overflows.
-/

namespace ShiftReduce

/-! ## Runs that do not halt -/

section Runs

variable {σ ν τ : Type} [BEq σ] [Token τ] {t : ParseTable σ ν}

/-- Each configuration is followed by the next one. -/
def ParseTable.Endless (t : ParseTable σ ν) (c : Nat → Configuration σ τ) : Prop :=
  ∀ n, (c n).step t = .next (c (n + 1))

theorem ParseTable.exists_endless {w : List τ} (h : ∀ n r, t.parse? n w ≠ some r) :
    ∃ c, c 0 = .initial t w ∧ t.Endless c := by
  have hrunning : ∀ n, ∃ c, (Configuration.initial t w).run t n = .running c := by
    intro n
    cases hrun : (Configuration.initial t w).run t n with
    | halted r => exact absurd (parse?_eq_some_iff.mpr hrun) (h n r)
    | running c => exact ⟨c, rfl⟩
  choose c hc using hrunning
  refine ⟨c, ?_, ?_⟩
  · have h0 : Run.running (.initial t w) = .running (c 0) := hc 0
    exact (Run.running.inj h0).symm
  · exact fun n => Configuration.step_of_run (hc n) (hc (n + 1))

variable {c : Nat → Configuration σ τ}

theorem ParseTable.Endless.from (h : t.Endless c) (m : Nat) : t.Endless fun n => c (m + n) :=
  fun n => h (m + n)

theorem ParseTable.Endless.run (h : t.Endless c) (n : Nat) : (c 0).run t n = .running (c n) := by
  induction n with
  | zero => rfl
  | succ n ih => exact Configuration.run_snoc ih (h n)

theorem ParseTable.Endless.suffix (h : t.Endless c) (m n : Nat) :
    (c (m + n)).input <:+ (c m).input :=
  Configuration.run_input_suffix ((h.from m).run n)

/-- At some step as much has been read as ever will be. -/
theorem ParseTable.Endless.exists_settled (h : t.Endless c) :
    ∃ m, ∀ n, (c (m + n)).input = (c m).input := by
  obtain ⟨m, -, hm⟩ := WellFounded.has_min (measure fun n => (c n).input.length).wf
    Set.univ ⟨0, trivial⟩
  refine ⟨m, fun n => ?_⟩
  have hle : (c m).input.length ≤ (c (m + n)).input.length :=
    Nat.le_of_not_lt (hm (m + n) trivial)
  exact (h.suffix m n).eq_of_length_le hle

end Runs

variable {g : Grammar} {a : Augmented} {τ : Type}

namespace Augmented

/-! ## Recurrences -/

/-- The run never again takes away what it has at step `i`; at the later step `j` some
more symbols are on top, and both stacks wait for `n`, which derives itself behind these
symbols. -/
structure Recurrence (a : Augmented) (c : Nat → Configuration StateId τ)
    (symbols : Nat → List Symbol) (n : NonterminalId) (i j : Nat) (between : List Symbol) :
    Prop where
  lt : i < j
  ne_nil : between ≠ []
  grown : symbols j = between ++ symbols i
  stays : ∀ m, i < m → (symbols i).length < (symbols m).length
  lower : a.Awaits (c i).states n
  upper : a.Awaits (c j).states n
  derives : ∃ after,
    a.grammar.DerivesProperly [.nonterminal n] (between.reverse ++ .nonterminal n :: after)

/-- The nonterminal of a recurrence is left recursive behind symbols that can vanish. -/
theorem Recurrence.hiddenLeftRecursive {c : Nat → Configuration StateId τ}
    {symbols : Nat → List Symbol} {n : NonterminalId} {i j : Nat} {between : List Symbol}
    (h : Recurrence a c symbols n i j between)
    (hcontracts : ∀ n, a.grammar.Contracts (symbols n) (symbols (n + 1))) :
    a.grammar.IsHiddenLeftRecursive n := by
  obtain ⟨after, hd⟩ := h.derives
  refine ⟨between.reverse, after, by simp [h.ne_nil], ?_, hd⟩
  obtain ⟨us, hus, hvanish, -⟩ := Grammar.exists_over hcontracts
    (List.nil_append (symbols i)).symm h.stays (j - i)
  rw [Nat.add_sub_cancel' (Nat.le_of_lt h.lt), h.grown] at hus
  rw [List.append_cancel_right hus]
  exact hvanish

variable [Token τ]

/-! ## What reductions do to the symbols -/

/-- A step that reads nothing reduces: the body of a rule is on top of the stack, and its
head takes its place. -/
theorem Moves.contraction (ha : Augments g a) {c c' : Configuration StateId τ}
    (h : a.Moves c c') (hinput : c'.input = c.input) {Xs : List Symbol}
    (hspells : a.Spells c.states Xs) :
    ∃ s below r rule under, c.states = s :: below ∧ a.Finishes s r ∧
      r ≠ a.acceptRule ∧ a.grammar.rule? r = some rule ∧ Xs = rule.body.reverse ++ under ∧
      a.Spells c'.states (.nonterminal rule.head :: under) := by
  cases h with
  | @shift s s' below nodes x rest l _ _ =>
      have hlen := congrArg List.length hinput
      exact absurd hlen (Nat.ne_of_lt (Nat.lt_succ_self rest.length))
  | @reduce s s' top below under nodes input l r rule _ action found _ uncovered goto _ =>
      obtain ⟨hfinishes, hr, -, -⟩ := (claims_of_action? action).finishes ha found
      obtain ⟨hbody, hspells'⟩ := hspells.reduction ha hfinishes found uncovered goto
      refine ⟨s, below, r, rule, Xs.drop rule.body.length, rfl, hfinishes, hr, found, ?_, hspells'⟩
      rw [← List.reverse_eq_iff.mp hbody, List.take_append_drop]

theorem Moves.exists_contracts (ha : Augments g a) {c c' : Configuration StateId τ}
    (h : a.Moves c c') (hinput : c'.input = c.input) {Xs : List Symbol}
    (hspells : a.Spells c.states Xs) :
    ∃ Ys, a.Spells c'.states Ys ∧ a.grammar.Contracts Xs Ys := by
  obtain ⟨s, below, r, rule, under, -, -, -, hrule, rfl, h'⟩ := h.contraction ha hinput hspells
  exact ⟨_, h', .rule under (Grammar.produces_of_rule? hrule)⟩

/-- A run that only reduces, with symbols that its stack spells at each step. -/
structure Reducing (a : Augmented) (c : Nat → Configuration StateId τ)
    (symbols : Nat → List Symbol) : Prop where
  moves : ∀ n, a.Moves (c n) (c (n + 1))
  input : ∀ n, (c (n + 1)).input = (c n).input
  spells : ∀ n, a.Spells (c n).states (symbols n)
  contracts : ∀ n, a.grammar.Contracts (symbols n) (symbols (n + 1))

theorem exists_reducing (ha : Augments g a) {c : Nat → Configuration StateId τ}
    (hmoves : ∀ n, a.Moves (c n) (c (n + 1))) (hinput : ∀ n, (c (n + 1)).input = (c n).input)
    {Xs : List Symbol} (hstart : a.Spells (c 0).states Xs) : ∃ symbols, Reducing a c symbols := by
  -- states may spell several strings, so each one is chosen after the one before it
  have hnext : ∀ n Ys, a.Spells (c n).states Ys →
      ∃ Zs, a.Spells (c (n + 1)).states Zs ∧ a.grammar.Contracts Ys Zs :=
    fun n _ hYs => (hmoves n).exists_contracts ha (hinput n) hYs
  choose! next hnext using hnext
  let symbols : Nat → List Symbol := fun n => Nat.rec Xs next n
  have hspells : ∀ n, a.Spells (c n).states (symbols n) := by
    intro n
    induction n with
    | zero => exact hstart
    | succ n ih => exact (hnext n _ ih).1
  exact ⟨symbols, hmoves, hinput, hspells, fun n => (hnext n _ (hspells n)).2⟩

/-- A run that does not end only reduces from some step on. -/
theorem exists_reducing_of_endless (ha : Augments g a) {w : List τ}
    (h : ∀ k r, a.table.parseTable.parse? k w ≠ some r) :
    ∃ m c symbols, Reducing a c symbols ∧ ∀ n,
      (Configuration.initial a.table.parseTable w).run a.table.parseTable (m + n) =
        .running (c n) := by
  obtain ⟨c, hstart, hendless⟩ := ParseTable.exists_endless h
  have hrun : ∀ n, (Configuration.initial a.table.parseTable w).run a.table.parseTable n =
      .running (c n) := fun n => hstart ▸ hendless.run n
  obtain ⟨m, hm⟩ := hendless.exists_settled
  obtain ⟨Xs, hXs, -, -⟩ := (sound_of_run ha w).1 _ (hrun m)
  have hmoves : ∀ n, a.Moves (c (m + n)) (c (m + (n + 1))) :=
    fun n => (step_eq_next_iff ha.outer).mp (hendless (m + n))
  have hinput : ∀ n, (c (m + (n + 1))).input = (c (m + n)).input :=
    fun n => (hm (n + 1)).trans (hm n).symm
  obtain ⟨symbols, hred⟩ := exists_reducing (c := fun n => c (m + n)) ha hmoves hinput hXs
  exact ⟨m, _, symbols, hred, fun n => hrun (m + n)⟩

/-! ## Where endless runs recur -/

theorem exists_bound : ∀ rules : List Rule, ∃ bound, ∀ r ∈ rules, r.body.length ≤ bound
  | [] => ⟨0, fun _ hr => nomatch hr⟩
  | r :: rules => by
      obtain ⟨bound, h⟩ := exists_bound rules
      refine ⟨max r.body.length bound, fun r' hr' => ?_⟩
      rcases List.mem_cons.mp hr' with rfl | hr'
      · exact Nat.le_max_left _ _
      · exact Nat.le_trans (h r' hr') (Nat.le_max_right _ _)

/-- The lower part of a stack that has been left for good is the whole stack at an earlier
step. -/
theorem exists_step_of_suffix (hg : a.grammar.WellFormed) (hacyclic : a.grammar.IsAcyclic)
    {symbols : Nat → List Symbol}
    (hcontracts : ∀ n, a.grammar.Contracts (symbols n) (symbols (n + 1))) {last : Nat}
    (hlast : ∀ n, last < n → (symbols last).length < (symbols n).length) {base : List Symbol}
    (hsuffix : base <:+ symbols last) (hlen : (symbols 0).length ≤ base.length) :
    ∃ m, symbols m = base ∧ ∀ n, m < n → base.length < (symbols n).length := by
  obtain ⟨m, hm, hstays⟩ := Grammar.exists_last hg hacyclic hcontracts hlen
  refine ⟨m, ?_, hstays⟩
  -- this is not after `last`, where all of the lower part is still there
  have hle : m ≤ last := by
    by_contra hlt
    have h1 := hlast m (Nat.lt_of_not_le hlt)
    exact absurd hsuffix.length_le (by omega)
  obtain ⟨us, hus, -⟩ := Grammar.exists_over hcontracts (List.nil_append (symbols m)).symm
    (fun n hn => hm ▸ hstays n hn) (last - m)
  rw [Nat.add_sub_cancel' hle] at hus
  have hsuffix' : symbols m <:+ symbols last := ⟨us, hus.symm⟩
  exact (List.suffix_of_suffix_length_le hsuffix' hsuffix (Nat.le_of_eq hm)).eq_of_length hm

/-- Wherever a reduction makes the stack higher, its head is awaited. -/
theorem Moves.awaits (ha : Augments g a) {c c' : Configuration StateId τ} (h : a.Moves c c')
    (hinput : c'.input = c.input) {Xs Xs' : List Symbol} (hspells : a.Spells c.states Xs)
    (hspells' : a.Spells c'.states Xs') (hlen : Xs.length < Xs'.length) :
    ∃ n, a.Awaits c.states n := by
  obtain ⟨s, below, r, rule, under, hstates, hfinishes, hr, hrule, hunder, h'⟩ :=
    h.contraction ha hinput hspells
  have hlen' : Xs'.length = under.length + 1 :=
    Nat.succ.inj (hspells'.length.symm.trans h'.length)
  rw [hlen', hunder, List.length_append, List.length_reverse] at hlen
  -- nothing was taken away, so the rule has the empty body
  have hnil : rule.body.length = 0 := by omega
  have hshort : (a.grammar.body r).length < UInt16.size := by
    rw [body_eq hrule]
    exact hfinishes.length_lt ha hrule
  obtain ⟨x, hx, rfl, hmarker⟩ := hfinishes.exists_item ha hrule
  rw [hnil] at hmarker
  have hx0 : x = ⟨x.rule, 0⟩ := Item.ext rfl (UInt16.toNat_inj.mp hmarker)
  obtain ⟨rule', -, hawaits⟩ := awaits_head ha below (hx0 ▸ hx) hr hshort
  exact ⟨rule'.head, hstates ▸ hawaits⟩

theorem Reducing.exists_recurrence (ha : Augments g a) (hfit : a.grammar.MarkersFit)
    (hacyclic : a.grammar.IsAcyclic) {c : Nat → Configuration StateId τ}
    {symbols : Nat → List Symbol} (h : Reducing a c symbols) :
    ∃ n i j between, Recurrence a c symbols n i j between := by
  obtain ⟨bound, hbound⟩ := exists_bound a.grammar.rules.values
  -- a height with room for a chain of awaited nonterminals, when it is left for good
  obtain ⟨last, hheight, hlast⟩ := Grammar.exists_last ha.outer hacyclic h.contracts
    (Nat.le_add_right (symbols 0).length ((bound + 1) * a.grammar.nonterminals.size))
  rw [← hheight] at hlast
  obtain ⟨n0, hn0⟩ := (h.moves last).awaits ha (h.input last) (h.spells last)
    (h.spells (last + 1)) (hlast (last + 1) (Nat.lt_succ_self last))
  have hvalid : Outlook.Valid a ⟨(c last).states, symbols last, n0⟩ := ⟨h.spells last, hn0⟩
  obtain ⟨upper, lower, hupper, hlower, ⟨between, hne, hover, after, hd⟩, hsame, hlen, hsuffix⟩ :=
    Outlook.exists_repeated ha hfit hbound hvalid (Nat.le_of_eq hheight.symm)
  have hsuffix' : lower.symbols <:+ symbols last :=
    List.IsSuffix.trans ⟨between, hover.symm⟩ hsuffix
  have hlt : lower.symbols.length < upper.symbols.length := by
    rw [hover, List.length_append]
    exact Nat.lt_add_of_pos_left (List.length_pos_iff.mpr hne)
  -- both stacks are reached at steps of their own
  obtain ⟨i, hi, hstays⟩ :=
    exists_step_of_suffix ha.outer hacyclic h.contracts hlast hsuffix' hlen
  obtain ⟨j, hj, hstays'⟩ :=
    exists_step_of_suffix ha.outer hacyclic h.contracts hlast hsuffix (by omega)
  have hlowerStates := hlower.spells.states_unique (hi ▸ h.spells i)
  have hupperStates := hupper.spells.states_unique (hj ▸ h.spells j)
  refine ⟨lower.awaited, i, j, between, ?_, hne, ?_, ?_, ?_, ?_, after, hsame ▸ hd⟩
  · rcases Nat.lt_trichotomy i j with hij | hij | hij
    · exact hij
    · rw [← hi, ← hj, hij] at hlt
      exact absurd hlt (Nat.lt_irrefl _)
    · have h1 := hstays' i hij
      rw [hi] at h1
      exact absurd h1 (Nat.lt_asymm hlt)
  · rw [hi, hj, hover]
  · intro m hm
    rw [hi]
    exact hstays m hm
  · exact hlowerStates ▸ hlower.awaits
  · exact hsame ▸ hupperStates ▸ hupper.awaits

end Augmented

end ShiftReduce
