import ShiftReduce.Proofs.Automaton.Stacks
import ShiftReduce.Proofs.Grammar.Cycles
import ShiftReduce.Proofs.Grammar.FollowSets
import ShiftReduce.Proofs.Grammar.Sources
import ShiftReduce.Table.Build

/-! # What stands in the cells of a table

- `firstWins_settleClaims`: each cell goes to the first action that is claimed for
  it, and the others are its conflicts.
- `settled_settleClaims`: only claimed actions are in the cells of a state, and
  without conflicts every claimed action is in its cell.
- `Claims.finishes`, `Claims.accept_item`: the items that reductions and the acceptance are
  claimed for.
- `mem_claims`: what a state claims, told by the items that it holds.
- `claims_of_action?`, `Claims.action?`: both for the table of a grammar.
- `table_eq_ok`, `exists_augmented`: what a table that is built shows about its grammar.
-/

namespace ShiftReduce

/-! ## Cells -/

/-- The actions that are claimed for a lookahead, in the order of the claims. -/
def claimed (t : TerminalId) (cs : List Claim) : List Action :=
  (cs.filter (·.lookahead = t)).map (·.action)

/-- The conflicts of a cell that these actions are claimed for. -/
def contested (s : StateId) (t : TerminalId) : List Action → List Conflict
  | [] => []
  | kept :: later => (later.filter (· ≠ kept)).map fun action => ⟨s, t, kept, action⟩

theorem mem_claimed {t : TerminalId} {cs : List Claim} {action : Action} :
    action ∈ claimed t cs ↔ ⟨t, action⟩ ∈ cs := by
  simp only [claimed, List.mem_map, List.mem_filter, decide_eq_true_eq]
  constructor
  · rintro ⟨c, ⟨hc, rfl⟩, rfl⟩
    exact hc
  · intro h
    exact ⟨_, ⟨h, rfl⟩, rfl⟩

theorem claimed_append (t : TerminalId) (cs cs' : List Claim) :
    claimed t (cs ++ cs') = claimed t cs ++ claimed t cs' := by
  rw [claimed, List.filter_append, List.map_append]
  rfl

theorem claimed_snoc (t : TerminalId) (cs : List Claim) (c : Claim) :
    claimed t (cs ++ [c]) = claimed t cs ++ if c.lookahead = t then [c.action] else [] := by
  rw [claimed_append]
  by_cases h : c.lookahead = t <;> simp [claimed, h]

/-- What is recorded of an action that is claimed for a cell. -/
def lost (s : StateId) (t : TerminalId) : Option Action → Action → List Conflict
  | none, _ => []
  | some kept, action => if kept = action then [] else [⟨s, t, kept, action⟩]

theorem mem_lost {s : StateId} {t : TerminalId} {found : Option Action} {action : Action}
    {c : Conflict} (h : c ∈ lost s t found action) : c.state = s ∧ c.lookahead = t := by
  cases found with
  | none => cases h
  | some kept =>
      rw [lost] at h
      split at h
      · cases h
      · rw [List.mem_singleton.mp h]
        exact ⟨rfl, rfl⟩

theorem contested_snoc (s : StateId) (t : TerminalId) (actions : List Action) (action : Action) :
    contested s t (actions ++ [action]) =
      contested s t actions ++ lost s t actions.head? action := by
  cases actions with
  | nil => rfl
  | cons kept later =>
      rw [List.cons_append, contested, contested, List.filter_append, List.map_append,
        List.head?_cons, lost]
      by_cases he : kept = action
      · simp [he]
      · simp [he, Ne.symm he]

/-! ## One claim after the other -/

theorem find?_claim (s : StateId) (cells : Cells) (c : Claim) (t : TerminalId) :
    (cells.claim s c).actions.find? t =
      (cells.actions.find? t).or (if c.lookahead = t then some c.action else none) := by
  unfold Cells.claim
  by_cases ht : c.lookahead = t
  · subst ht
    cases hfind : cells.actions.find? c.lookahead with
    | none => simp [OrderedMap.find?_insert]
    | some kept => by_cases he : kept = c.action <;> simp [he, hfind]
  · rw [if_neg ht, Option.or_none]
    cases hfind : cells.actions.find? c.lookahead with
    | none => simp [OrderedMap.find?_insert, Ne.symm ht]
    | some kept => by_cases he : kept = c.action <;> simp [he]

theorem conflicts_claim (s : StateId) (cells : Cells) (c : Claim) :
    (cells.claim s c).conflicts =
      cells.conflicts ++ lost s c.lookahead (cells.actions.find? c.lookahead) c.action := by
  unfold Cells.claim
  cases hfind : cells.actions.find? c.lookahead with
  | none => simp [lost]
  | some kept => by_cases he : kept = c.action <;> simp [he, lost]

/-- Each cell holds the first action that is claimed for it, and each other action that is
claimed for it is a conflict. -/
structure Cells.FirstWins (s : StateId) (cells : Cells) (cs : List Claim) : Prop where
  kept : ∀ t, cells.actions.find? t = (claimed t cs).head?
  dropped : ∀ t, cells.conflicts.filter (·.lookahead = t) = contested s t (claimed t cs)
  state : ∀ c ∈ cells.conflicts, c.state = s

theorem Cells.FirstWins.claim {s : StateId} {cells : Cells} {cs : List Claim}
    (h : cells.FirstWins s cs) (c : Claim) : (cells.claim s c).FirstWins s (cs ++ [c]) where
  kept := by
    intro t
    rw [find?_claim, h.kept, claimed_snoc, List.head?_append]
    split <;> rfl
  dropped := by
    intro t
    rw [conflicts_claim, List.filter_append, h.dropped, h.kept, claimed_snoc]
    by_cases ht : c.lookahead = t
    · subst ht
      rw [if_pos rfl, contested_snoc, List.filter_eq_self.mpr]
      intro d hd
      exact decide_eq_true (mem_lost hd).2
    · rw [if_neg ht, List.append_nil, List.filter_eq_nil_iff.mpr, List.append_nil]
      intro d hd
      rw [(mem_lost hd).2]
      exact mt of_decide_eq_true ht
  state := by
    intro d hd
    rw [conflicts_claim] at hd
    rcases List.mem_append.mp hd with hd | hd
    · exact h.state d hd
    · exact (mem_lost hd).1

theorem firstWins_settleClaims (s : StateId) (cs : List Claim) :
    (settleClaims s cs).FirstWins s cs := by
  induction cs using List.reverseRecOn with
  | nil => exact ⟨fun _ => rfl, fun _ => rfl, fun c hc => nomatch hc⟩
  | append_singleton cs c ih =>
      rw [settleClaims, List.foldl_append]
      exact ih.claim c

/-- Whether the cells, as far as they are filled, hold the claims made. -/
structure Cells.Settled (cells : Cells) (made : List Claim) : Prop where
  claimed : ∀ t action, cells.actions.find? t = some action → ⟨t, action⟩ ∈ made
  honoured : cells.conflicts = [] → ∀ c ∈ made, cells.actions.find? c.lookahead = some c.action

theorem settled_settleClaims (s : StateId) (cs : List Claim) :
    (settleClaims s cs).Settled cs := by
  have h := firstWins_settleClaims s cs
  constructor
  · intro t action hfind
    rw [h.kept] at hfind
    exact mem_claimed.mp (List.mem_of_mem_head? hfind)
  · intro hnone c hc
    have hmem : c.action ∈ claimed c.lookahead cs := mem_claimed.mpr hc
    have hdropped := h.dropped c.lookahead
    rw [hnone] at hdropped
    rw [h.kept]
    cases hclaimed : claimed c.lookahead cs with
    | nil =>
        rw [hclaimed] at hmem
        cases hmem
    | cons kept later =>
        rw [hclaimed, contested, List.filter_nil, eq_comm, List.map_eq_nil_iff,
          List.filter_eq_nil_iff] at hdropped
        rw [hclaimed] at hmem
        rcases List.mem_cons.mp hmem with he | hlater
        · rw [he]
          rfl
        · have he : c.action = kept := by simpa using hdropped c.action hlater
          rw [he]
          rfl

/-! ## Claims -/

namespace Augmented

variable {g : Grammar} {a : Augmented}

/-- The terminal is in the set that follows the nonterminal. -/
def Follows (a : Augmented) (n : NonterminalId) (t : TerminalId) : Prop :=
  ((a.grammar.followSets a.grammar.firstSets).get n).contains t = true

/-- The action that a state asks for on a terminal. -/
inductive Claims (a : Augmented) (s : StateId) : TerminalId → Action → Prop where
  | accept {x : Item} (holds : a.Holds s x) (complete : x.isComplete a.grammar = true)
      (rule : x.rule = a.acceptRule) : Claims a s endOfInput .accept
  | shift {t : TerminalId} {s' : StateId}
      (next : a.automaton.next? s (.terminal t) = some s') : Claims a s t (.shift s')
  | reduce {x : Item} {rule : Rule} {t : TerminalId} (holds : a.Holds s x)
      (complete : x.isComplete a.grammar = true) (inner : x.rule ≠ a.acceptRule)
      (found : a.grammar.rule? x.rule = some rule) (follows : a.Follows rule.head t) :
      Claims a s t (.reduce x.rule)

/-- The end of the input stands in no body, so it is not shifted. -/
theorem Claims.shift_ne_endOfInput (ha : Augments g a) {s s' : StateId} {l : TerminalId}
    (h : a.Claims s l (.shift s')) : l ≠ endOfInput := by
  cases h with
  | shift next =>
      obtain ⟨x, -, hx, -⟩ := exists_holds_of_next? ha next
      obtain ⟨n, body, hp, hmem⟩ := Item.exists_body_of_next hx
      exact (hp.allows ha.outer _ hmem).1

/-- A rule is reduced where it has come to its end. -/
theorem Claims.finishes (ha : Augments g a) {s : StateId} {l : TerminalId} {r : RuleId}
    {rule : Rule} (h : a.Claims s l (.reduce r)) (hr : a.grammar.rule? r = some rule) :
    a.Finishes s r ∧ r ≠ a.acceptRule ∧ (r, rule) ∈ g.rules.entries ∧ a.Follows rule.head l := by
  cases h with
  | @reduce x rule' _ holds complete inner found follows =>
      rw [hr] at found
      cases found
      exact ⟨⟨x, holds, rfl, complete⟩, inner, ha.mem_rules_of_ne hr inner, follows⟩

theorem Finishes.claims {s : StateId} {r : RuleId} (h : a.Finishes s r) (hr : r ≠ a.acceptRule)
    {rule : Rule} (hrule : a.grammar.rule? r = some rule) {l : TerminalId}
    (hl : a.Follows rule.head l) : a.Claims s l (.reduce r) := by
  obtain ⟨x, hx, rfl, hcomplete⟩ := h
  exact .reduce hx hcomplete hr hrule hl

/-- The added rule comes to its end behind its one symbol. -/
theorem finishes_acceptRule_iff (ha : Augments g a) {s : StateId} :
    a.Finishes s a.acceptRule ↔ a.Holds s ⟨a.acceptRule, 1⟩ := by
  constructor
  · intro h
    obtain ⟨x, hx, hr, hmarker⟩ := h.exists_item ha ha.rule?_accept
    have hx1 : x = ⟨a.acceptRule, 1⟩ := Item.ext hr (UInt16.toNat_inj.mp hmarker)
    exact hx1 ▸ hx
  · intro h
    refine ⟨_, h, rfl, ?_⟩
    rw [Item.isComplete, ha.body_accept]
    rfl

/-- The item that the acceptance is made for, at the end of the input. -/
theorem Claims.accept_item (ha : Augments g a) {s : StateId} {l : TerminalId}
    (h : a.Claims s l .accept) : l = endOfInput ∧ a.Holds s ⟨a.acceptRule, 1⟩ := by
  cases h with
  | @accept x holds complete rule =>
      exact ⟨rfl, (finishes_acceptRule_iff ha).mp ⟨x, holds, rule, complete⟩⟩

theorem mem_transitions {s s' : StateId} {x : State} (hx : a.automaton.state? s = some x)
    {X : Symbol} : (X, s') ∈ x.transitions.entries ↔ a.automaton.next? s X = some s' := by
  obtain ⟨-, htrans⟩ := exists_set hx
  rw [Automaton.next?, hx, Option.bind_some, htrans, transitions,
    OrderedMap.find?_map_eq_some_iff, List.mem_map]
  constructor
  · rintro ⟨Y, hY, he⟩
    cases he
    exact ⟨hY, rfl⟩
  · rintro ⟨hX, rfl⟩
    exact ⟨X, hX, rfl⟩

theorem mem_acceptClaims {complete : List Item} {c : Claim} :
    c ∈ acceptClaims a complete ↔
      c = ⟨endOfInput, .accept⟩ ∧ ∃ x ∈ complete, x.rule = a.acceptRule := by
  unfold acceptClaims
  split
  · next h =>
      obtain ⟨x, hx, hrule⟩ := List.any_eq_true.mp h
      rw [List.mem_singleton]
      exact ⟨fun hc => ⟨hc, x, hx, of_decide_eq_true hrule⟩, And.left⟩
  · next h =>
      constructor
      · intro hc
        cases hc
      · rintro ⟨-, x, hx, hrule⟩
        exact absurd (List.any_eq_true.mpr ⟨x, hx, decide_eq_true hrule⟩) h

theorem mem_shiftClaims {x : State} {t : TerminalId} {action : Action} :
    ⟨t, action⟩ ∈ shiftClaims x ↔
      ∃ s', action = .shift s' ∧ (Symbol.terminal t, s') ∈ x.transitions.entries := by
  simp only [shiftClaims, List.mem_filterMap, Prod.exists]
  constructor
  · rintro ⟨X, s', hmem, hX⟩
    split at hX
    · cases hX
      exact ⟨s', rfl, hmem⟩
    · cases hX
  · rintro ⟨s', rfl, hmem⟩
    exact ⟨_, s', hmem, rfl⟩

theorem mem_reduceClaims {follow : FollowSets} {complete : List Item} {t : TerminalId}
    {action : Action} :
    ⟨t, action⟩ ∈ reduceClaims a follow complete ↔ ∃ x ∈ complete, x.rule ≠ a.acceptRule ∧
      ∃ rule, a.grammar.rule? x.rule = some rule ∧ (follow.get rule.head).contains t = true ∧
        action = .reduce x.rule := by
  simp only [reduceClaims, List.mem_flatMap, List.mem_filter, decide_eq_true_eq, ne_eq]
  constructor
  · rintro ⟨x, ⟨hx, hne⟩, hc⟩
    split at hc
    · next rule hrule =>
        obtain ⟨u, hu, he⟩ := List.mem_map.mp hc
        cases he
        exact ⟨x, hx, hne, rule, hrule, TerminalSet.mem_toList.mp hu, rfl⟩
    · cases hc
  · rintro ⟨x, hx, hne, rule, hrule, ht, rfl⟩
    refine ⟨x, ⟨hx, hne⟩, ?_⟩
    rw [hrule]
    exact List.mem_map.mpr ⟨t, TerminalSet.mem_toList.mpr ht, rfl⟩

theorem mem_claims {s : StateId} {x : State} (hx : a.automaton.state? s = some x)
    {t : TerminalId} {action : Action} :
    ⟨t, action⟩ ∈ claims a (a.grammar.followSets a.grammar.firstSets) x ↔
      a.Claims s t action := by
  simp only [claims, List.mem_append, mem_acceptClaims, mem_shiftClaims, mem_reduceClaims,
    mem_transitions hx, List.mem_filter, ← holds_iff hx]
  constructor
  · rintro ((⟨he, y, ⟨hy, hc⟩, hrule⟩ | ⟨s', rfl, hnext⟩) | ⟨y, ⟨hy, hc⟩, hne, rule, hr, ht, rfl⟩)
    · cases he
      exact .accept hy hc hrule
    · exact .shift hnext
    · exact .reduce hy hc hne hr ht
  · rintro (⟨hy, hc, hrule⟩ | ⟨hnext⟩ | ⟨hy, hc, hne, hr, ht⟩)
    · exact .inl (.inl ⟨rfl, _, ⟨hy, hc⟩, hrule⟩)
    · exact .inl (.inr ⟨_, rfl, hnext⟩)
    · exact .inr ⟨_, ⟨hy, hc⟩, hne, _, hr, ht, rfl⟩

/-! ## Tables -/

theorem row?_eq (s : StateId) : a.table.row? s = (a.automaton.state? s).map fun x =>
    ⟨(settleClaims s (claims a (a.grammar.followSets a.grammar.firstSets) x)).actions,
      gotoEntries x⟩ := by
  simp only [ParsingTable.row?, table, List.getElem?_map, List.getElem?_zipIdx, Automaton.state?,
    Option.map_map, Nat.zero_add]
  rfl

/-- A state does only what it claims. -/
theorem claims_of_action? {s : StateId} {t : TerminalId} {action : Action}
    (h : a.table.action? s t = some action) : a.Claims s t action := by
  rw [ParsingTable.action?, row?_eq] at h
  cases hx : a.automaton.state? s with
  | none =>
      rw [hx] at h
      cases h
  | some x =>
      rw [hx] at h
      exact (mem_claims hx).mp ((settled_settleClaims s _).claimed t action h)

/-- Without conflicts a state does whatever it claims. -/
theorem Claims.action? {s : StateId} {t : TerminalId} {action : Action}
    (h : a.Claims s t action) (hnone : a.table.conflicts = []) :
    a.table.action? s t = some action := by
  have hstate : ∃ x, a.automaton.state? s = some x := by
    cases h with
    | accept holds _ _ | reduce holds _ _ _ _ =>
        obtain ⟨x, hx, -⟩ := holds.exists_state
        exact ⟨x, hx⟩
    | shift next =>
        rw [Automaton.next?, Option.bind_eq_some_iff] at next
        obtain ⟨x, hx, -⟩ := next
        exact ⟨x, hx⟩
  obtain ⟨x, hx⟩ := hstate
  have hcells : (settleClaims s
      (claims a (a.grammar.followSets a.grammar.firstSets) x)).conflicts = [] := by
    simp only [table, List.flatMap_eq_nil_iff, List.mem_map, forall_exists_index, and_imp,
      Prod.forall] at hnone
    exact hnone _ _ x s (List.mk_mem_zipIdx_iff_getElem?.mpr hx) rfl
  rw [ParsingTable.action?, row?_eq, hx]
  exact (settled_settleClaims s _).honoured hcells ⟨t, action⟩ ((mem_claims hx).mpr h)

theorem action?_eq_some_iff (hnone : a.table.conflicts = []) {s : StateId} {t : TerminalId}
    {action : Action} : a.table.action? s t = some action ↔ a.Claims s t action :=
  ⟨claims_of_action?, fun h => h.action? hnone⟩

theorem find?_gotoEntries (x : State) (n : NonterminalId) :
    (gotoEntries x).find? n = x.transitions.find? (.nonterminal n) := by
  simp only [gotoEntries, OrderedMap.find?]
  induction x.transitions.entries with
  | nil => rfl
  | cons e es ih =>
      obtain ⟨X, s'⟩ := e
      rw [List.filterMap_cons, List.lookup_cons]
      cases X with
      | terminal t => exact ih
      | nonterminal m =>
          rw [List.lookup_cons, ih]
          by_cases hm : n = m
          · subst hm
            simp only [beq_self_eq_true]
          · have h1 : (n == m) = false := beq_eq_false_iff_ne.mpr hm
            have h2 : (Symbol.nonterminal n == Symbol.nonterminal m) = false :=
              beq_eq_false_iff_ne.mpr fun he => hm (Symbol.nonterminal.inj he)
            simp only [h1, h2]

theorem goto?_eq (s : StateId) (n : NonterminalId) :
    a.table.goto? s n = a.automaton.next? s (.nonterminal n) := by
  rw [ParsingTable.goto?, row?_eq, Automaton.next?, Option.bind_map]
  exact congrArg _ (funext fun x => find?_gotoEntries x n)

end Augmented

/-! ## Policies -/

section

variable {g : Grammar} {a : Augmented} (h : g.augment = .ok a)

include h

theorem table_of_cyclicNames_ne_nil (hcyclic : a.cyclicNames ≠ []) (policy : ConflictPolicy) :
    g.table policy = .error (.cyclic a.cyclicNames) := by
  rw [Grammar.table, h]
  exact if_pos hcyclic

theorem table_of_cyclicNames_eq_nil (hacyclic : a.cyclicNames = []) (policy : ConflictPolicy) :
    g.table policy = if policy = .deny ∧ a.table.conflicts ≠ [] then
      .error (.conflicts a.table.conflicts) else .ok a.table := by
  rw [Grammar.table, h]
  exact if_neg (not_not.mpr hacyclic)

end

/-- What a table that is built shows about its grammar. -/
theorem table_eq_ok {g : Grammar} {policy : ConflictPolicy} {t : ParsingTable}
    (h : g.table policy = .ok t) :
    ∃ a, g.augment = .ok a ∧ t = a.table ∧ a.cyclicNames = [] ∧
      (policy = .deny → t.conflicts = []) := by
  unfold Grammar.table at h
  split at h
  · cases h
  · next a ha =>
      split at h
      · cases h
      · next hcyclic =>
          simp only at h
          split at h
          · cases h
          · next hpolicy =>
              cases h
              refine ⟨a, ha, rfl, not_not.mp hcyclic, ?_⟩
              intro hdeny
              exact not_not.mp fun hne => hpolicy ⟨hdeny, hne⟩

/-- Whatever the conflicts, no nonterminal of a table's grammar derives itself. -/
theorem Augmented.isAcyclic_of_cyclicNames (ha : Augments g a) (h : a.cyclicNames = []) :
    a.grammar.IsAcyclic := by
  intro n hn
  have hmem := mem_cyclicNonterminals ha.outer hn
  rw [cyclicNames, List.map_eq_nil_iff] at h
  rw [h] at hmem
  cases hmem

/-- A table that is built is the one of a larger grammar without cycles. -/
theorem Grammar.IsBuilt.exists_augmented (hg : g.IsBuilt) {policy : ConflictPolicy}
    {t : ParsingTable} (ht : g.table policy = .ok t) :
    ∃ a, Augments g a ∧ a.table = t ∧ a.grammar.IsAcyclic := by
  obtain ⟨a, haug, rfl, hcyclic, -⟩ := table_eq_ok ht
  have ha := augments_of_augment hg.wellFormed haug
  exact ⟨a, ha, rfl, Augmented.isAcyclic_of_cyclicNames ha hcyclic⟩

/-- The grammar and the table of a text, with what a test finds of them. -/
theorem exists_table (source : String) (policy : ConflictPolicy)
    (p : Grammar → ParsingTable → Bool)
    (h : ((Grammar.ofSource source).toOption.any fun g =>
      (g.table policy).toOption.any (p g)) = true) :
    ∃ g t, Grammar.ofSource source = .ok g ∧ g.table policy = .ok t ∧ p g t = true := by
  obtain ⟨g, hg, htable⟩ := Grammar.exists_ofSource source _ h
  cases ht : g.table policy with
  | error e =>
      rw [ht] at htable
      cases htable
  | ok t =>
      rw [ht] at htable
      exact ⟨g, t, hg, ht, htable⟩

end ShiftReduce
