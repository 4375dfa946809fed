import ShiftReduce.Proofs.Table.Candidates

/-! # Exact tables

What the cells of a table hold and which conflicts are reported, told by the candidates for
the cells.

- `Augmented.filter_conflicts`: the conflicts of a cell.
- `Augmented.conflicts_eq_nil_iff`: when there are none at all.
- `ParsingTable.IsExact`: each cell goes to its first candidate, and all others are reported.
- `table_exact`: such a table is built, or refused with its conflicts.
-/

namespace ShiftReduce

/-! ## Numbered lists -/

section

variable {α β : Type} {f : α × Nat → List β} {key : β → Nat}
  (hkey : ∀ e, ∀ b ∈ f e, key b = e.2)

include hkey

theorem filter_flatMap_zipIdx_of_lt (xs : List α) {m n : Nat} (h : m < n) :
    ((xs.zipIdx n).flatMap f).filter (fun b => key b = m) = [] := by
  rw [List.filter_eq_nil_iff]
  intro b hb
  obtain ⟨e, he, hbe⟩ := List.mem_flatMap.mp hb
  have hle := (List.mem_zipIdx he).1
  rw [decide_eq_true_eq, hkey e b hbe]
  omega

/-- The part of a list that one of the numbers makes. -/
theorem filter_flatMap_zipIdx (xs : List α) (n i : Nat) :
    ((xs.zipIdx n).flatMap f).filter (fun b => key b = n + i) =
      (xs[i]?.map fun x => f (x, n + i)).getD [] := by
  induction xs generalizing n i with
  | nil => rfl
  | cons x xs ih =>
      rw [List.zipIdx_cons, List.flatMap_cons, List.filter_append]
      cases i with
      | zero =>
          have hself : (f (x, n)).filter (fun b => key b = n + 0) = f (x, n) := by
            rw [List.filter_eq_self]
            exact fun b hb => decide_eq_true (hkey _ b hb)
          have hlt : n + 0 < n + 1 := Nat.lt_succ_self n
          rw [hself, filter_flatMap_zipIdx_of_lt hkey xs hlt, List.append_nil]
          rfl
      | succ i =>
          have hself : (f (x, n)).filter (fun b => key b = n + (i + 1)) = [] := by
            rw [List.filter_eq_nil_iff]
            intro b hb
            rw [decide_eq_true_eq, hkey _ b hb]
            simp
          have hnext := ih (n + 1) i
          rw [Nat.add_right_comm, Nat.add_assoc] at hnext
          rw [hself, List.nil_append, hnext]
          rfl

end

namespace Augmented

variable {g : Grammar} {a : Augmented}

/-! ## The cells of a table -/

/-- The conflicts of a state. -/
theorem filter_conflicts_state (s : StateId) :
    a.table.conflicts.filter (fun c => c.state = s) =
      ((a.automaton.state? s).map fun x =>
        (settleClaims s (claims a (a.grammar.followSets a.grammar.firstSets) x)).conflicts).getD
          [] := by
  have hstate : ∀ e : State × StateId, ∀ c ∈ (settleClaims e.2
      (claims a (a.grammar.followSets a.grammar.firstSets) e.1)).conflicts, c.state = e.2 :=
    fun e c hc => (firstWins_settleClaims e.2 _).state c hc
  have h := filter_flatMap_zipIdx hstate a.automaton.states 0 s
  simp only [table, List.flatMap_map]
  rw [Nat.zero_add] at h
  exact h

theorem contested_of_nodup (s : StateId) (t : TerminalId) {kept : Action} {later : List Action}
    (h : (kept :: later).Nodup) :
    contested s t (kept :: later) = later.map fun action => ⟨s, t, kept, action⟩ := by
  rw [contested, List.filter_eq_self.mpr]
  intro action hmem
  refine decide_eq_true ?_
  rintro rfl
  exact (List.nodup_cons.mp h).1 hmem

section

variable (ha : Augments g a) (hrules : a.grammar.rules.Ascending)

include ha hrules

theorem action?_eq {s : StateId} {x : State} (hx : a.automaton.state? s = some x)
    (t : TerminalId) : a.table.action? s t = (a.candidates x t).head? := by
  rw [ParsingTable.action?, row?_eq, hx, ← claimed_claims ha hrules hx]
  exact (firstWins_settleClaims s _).kept t

/-- The conflicts of a cell. -/
theorem filter_conflicts {s : StateId} {x : State} (hx : a.automaton.state? s = some x)
    (t : TerminalId) :
    a.table.conflicts.filter (fun c => c.state = s ∧ c.lookahead = t) =
      contested s t (a.candidates x t) := by
  have hsplit : (fun c : Conflict => decide (c.state = s ∧ c.lookahead = t)) =
      fun c => decide (c.lookahead = t) && decide (c.state = s) := by
    funext c
    rw [Bool.decide_and, Bool.and_comm]
  rw [hsplit, ← List.filter_filter, filter_conflicts_state, hx,
    ← claimed_claims ha hrules hx]
  exact (firstWins_settleClaims s _).dropped t

/-- A conflict is one of a cell with several candidates. -/
theorem exists_candidates {c : Conflict} (hc : c ∈ a.table.conflicts) :
    ∃ x later, a.automaton.state? c.state = some x ∧
      a.candidates x c.lookahead = c.kept :: later ∧ c.discarded ∈ later := by
  have hstate : c ∈ a.table.conflicts.filter (fun d => d.state = c.state) :=
    List.mem_filter.mpr ⟨hc, decide_eq_true rfl⟩
  rw [filter_conflicts_state] at hstate
  cases hx : a.automaton.state? c.state with
  | none =>
      rw [hx] at hstate
      cases hstate
  | some x =>
      have hcell : c ∈ a.table.conflicts.filter
          (fun d => d.state = c.state ∧ d.lookahead = c.lookahead) :=
        List.mem_filter.mpr ⟨hc, decide_eq_true ⟨rfl, rfl⟩⟩
      rw [filter_conflicts ha hrules hx] at hcell
      cases hcandidates : a.candidates x c.lookahead with
      | nil =>
          rw [hcandidates] at hcell
          cases hcell
      | cons kept later =>
          rw [hcandidates] at hcell
          obtain ⟨action, hlater, he⟩ := List.mem_map.mp hcell
          have hkept : kept = c.kept := congrArg Conflict.kept he
          have hdiscarded : action = c.discarded := congrArg Conflict.discarded he
          subst hkept hdiscarded
          exact ⟨x, later, rfl, hcandidates, (List.mem_filter.mp hlater).1⟩

/-- What is refused is a reduction, and not by the rule of what is kept. -/
theorem exists_reduction_of_mem_conflicts {c : Conflict} (hc : c ∈ a.table.conflicts) :
    ∃ r, c.discarded = .reduce r ∧ c.kept ≠ .reduce r := by
  obtain ⟨x, later, hx, hcandidates, hmem⟩ := exists_candidates ha hrules hc
  have htail : c.discarded ∈ (a.candidates x c.lookahead).tail := by
    rw [hcandidates]
    exact hmem
  have hnodup := nodup_candidates ha hrules hx c.lookahead
  rw [hcandidates] at hnodup
  obtain ⟨r, hr⟩ := reduce_of_mem_tail ha hx _ htail
  refine ⟨r, hr, fun hkept => ?_⟩
  rw [hkept, ← hr] at hnodup
  exact (List.nodup_cons.mp hnodup).1 hmem

/-- No conflicts are left if, and only if, there is at most one candidate for each cell. -/
theorem conflicts_eq_nil_iff : a.table.conflicts = [] ↔
    ∀ s x, a.automaton.state? s = some x → ∀ t, (a.candidates x t).length ≤ 1 := by
  constructor
  · intro hnone s x hx t
    have hcell := filter_conflicts ha hrules hx t
    have hnodup := nodup_candidates ha hrules hx t
    rw [hnone, List.filter_nil, eq_comm] at hcell
    cases hcandidates : a.candidates x t with
    | nil => exact Nat.zero_le 1
    | cons kept later =>
        rw [hcandidates] at hcell hnodup
        rw [contested_of_nodup s t hnodup, List.map_eq_nil_iff] at hcell
        rw [hcell]
        exact Nat.le_refl 1
  · intro hone
    apply List.eq_nil_iff_forall_not_mem.mpr
    intro c hc
    obtain ⟨x, later, hx, hcandidates, hmem⟩ := exists_candidates ha hrules hc
    have hlength := hone c.state x hx c.lookahead
    rw [hcandidates, List.length_cons] at hlength
    exact absurd (List.length_pos_of_mem hmem) (by omega)

end

end Augmented

/-! ## Exact tables -/

/-- Every cell of the table is told by the candidates for it. -/
structure ParsingTable.IsExact (t : ParsingTable) (a : Augmented) : Prop where
  /-- There is a row for each state. -/
  rows : ∀ s, (t.row? s).isSome = (a.automaton.state? s).isSome
  /-- The first candidate is the action. -/
  actions : ∀ s x, a.automaton.state? s = some x → ∀ l,
    t.action? s l = (a.candidates x l).head?
  gotos : ∀ s x, a.automaton.state? s = some x → ∀ n,
    t.goto? s n = x.transitions.find? (.nonterminal n)
  /-- All other candidates are conflicts with it, in their order. -/
  conflicts : ∀ s x, a.automaton.state? s = some x → ∀ l,
    t.conflicts.filter (fun c => c.state = s ∧ c.lookahead = l) =
      match a.candidates x l with
      | [] => []
      | kept :: later => later.map fun action => ⟨s, l, kept, action⟩
  /-- Only states have conflicts. -/
  states : ∀ c ∈ t.conflicts, (a.automaton.state? c.state).isSome
  /-- No shift competes with acceptance or with another shift. -/
  reductions : ∀ s x, a.automaton.state? s = some x → ∀ l, ∀ action ∈ (a.candidates x l).tail,
    ∃ r, action = .reduce r
  /-- The kind of a conflict tells what is kept; what is refused is another reduction. -/
  kinds : ∀ c ∈ t.conflicts, ∃ r, c.discarded = .reduce r ∧ c.kept ≠ .reduce r ∧
    c.kind = match c.kept with
      | .shift _ => .shiftReduce
      | .reduce _ => .reduceReduce
      | .accept => .acceptReduce

theorem Augmented.isExact_table {g : Grammar} {a : Augmented} (ha : Augments g a)
    (hrules : a.grammar.rules.Ascending) : a.table.IsExact a where
  rows := by
    intro s
    rw [row?_eq, Option.isSome_map]
  actions := fun s x hx l => action?_eq ha hrules hx l
  gotos := by
    intro s x hx n
    rw [goto?_eq, Automaton.next?, hx]
    rfl
  conflicts := by
    intro s x hx l
    have hnodup := nodup_candidates ha hrules hx l
    rw [filter_conflicts ha hrules hx]
    cases hcandidates : a.candidates x l with
    | nil => rfl
    | cons kept later =>
        rw [hcandidates] at hnodup
        exact contested_of_nodup s l hnodup
  states := by
    intro c hc
    obtain ⟨x, later, hx, -⟩ := exists_candidates ha hrules hc
    rw [hx]
    rfl
  reductions := fun s x hx l action h => reduce_of_mem_tail ha hx l h
  kinds := by
    intro c hc
    obtain ⟨r, hr, hkept⟩ := exists_reduction_of_mem_conflicts ha hrules hc
    refine ⟨r, hr, hkept, ?_⟩
    rw [Conflict.kind, hr]
    cases c.kept <;> rfl

/-- If the rows of a grammar are filled, each cell gets the first of its candidates and all
others are reported. Without tolerance for conflicts this is an error, unless no cell has two
candidates. -/
theorem table_exact {g : Grammar} {a : Augmented} (hg : g.IsBuilt) (h : g.augment = .ok a)
    (hacyclic : a.cyclicNames = []) :
    ∃ t, g.table .warn = .ok t ∧ t.IsExact a ∧
      (g.table .deny = .ok t ∨ g.table .deny = .error (.conflicts t.conflicts)) ∧
      (g.table .deny = .ok t ↔ ∀ s x, a.automaton.state? s = some x → ∀ l,
        (a.candidates x l).length ≤ 1) := by
  have ha := augments_of_augment hg.wellFormed h
  have hrules := (isDefined_of_augment hg.isDefined h).ascending_rules
  have htable : ∀ policy, g.table policy =
      if policy = .deny ∧ a.table.conflicts ≠ [] then .error (.conflicts a.table.conflicts)
      else .ok a.table := by
    intro policy
    rw [Grammar.table, h]
    simp only [hacyclic, ne_eq, not_true_eq_false, if_false]
  refine ⟨a.table, ?_, Augmented.isExact_table ha hrules, ?_, ?_⟩
  · rw [htable, if_neg]
    rintro ⟨hpolicy, -⟩
    cases hpolicy
  · rw [htable]
    split
    · exact .inr rfl
    · exact .inl rfl
  · rw [← Augmented.conflicts_eq_nil_iff ha hrules, htable]
    by_cases hnone : a.table.conflicts = []
    · simp [hnone]
    · simp [hnone]

/-- Two reductions compete with a shift on `b`, and one with acceptance at the end. -/
theorem table_exact_three_candidates : ∃ g a t,
    Grammar.ofSource
        "S, A, B\nb, c, d\nS -> A b | B b | d b | c A\nA -> S | d\nB -> d\n" = .ok g ∧
      g.augment = .ok a ∧ a.cyclicNames = [] ∧ g.table .warn = .ok t ∧ t.IsExact a ∧
      t.action? 5 endOfInput = some .accept ∧
      t.conflicts.filter (fun c => c.state = 3 ∧ c.lookahead = 1) =
        [⟨3, 1, .shift 8, .reduce 5⟩, ⟨3, 1, .shift 8, .reduce 6⟩] ∧
      g.table .deny = .error (.conflicts t.conflicts) := by
  obtain ⟨g, a, hg, ha, hcheck⟩ := exists_augment
    "S, A, B\nb, c, d\nS -> A b | B b | d b | c A\nA -> S | d\nB -> d\n"
    (fun _ a => decide (a.cyclicNames = [] ∧
      ((a.automaton.state? 3).any fun x =>
        decide (a.candidates x 1 = [.shift 8, .reduce 5, .reduce 6])) = true ∧
      ((a.automaton.state? 5).any fun x =>
        decide (a.candidates x endOfInput = [.accept, .reduce 4])) = true)) (by decide +kernel)
  obtain ⟨hacyclic, hshift, haccept⟩ := of_decide_eq_true hcheck
  obtain ⟨x, hx, hshift⟩ := (Option.any_eq_true _ _).mp hshift
  obtain ⟨y, hy, haccept⟩ := (Option.any_eq_true _ _).mp haccept
  rw [decide_eq_true_eq] at hshift haccept
  obtain ⟨t, hwarn, hexact, hdeny, hone⟩ := table_exact (.inr ⟨_, hg⟩) ha hacyclic
  refine ⟨g, a, t, hg, ha, hacyclic, hwarn, hexact, ?_, ?_, ?_⟩
  · rw [hexact.actions 5 y hy, haccept]
    rfl
  · rw [hexact.conflicts 3 x hx, hshift]
    rfl
  · apply hdeny.resolve_left
    intro hok
    have hlength := hone.mp hok 3 x hx 1
    rw [hshift] at hlength
    exact absurd hlength (by decide)

end ShiftReduce
