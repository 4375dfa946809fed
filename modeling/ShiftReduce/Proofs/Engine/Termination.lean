import ShiftReduce.Proofs.Engine.Completeness
import ShiftReduce.Proofs.Engine.Endless
import ShiftReduce.Proofs.Grammar.Productive

/-! # Termination

On a table without conflicts, and without markers that overflow, an endless run is possible only
over a nonterminal that derives itself behind symbols that can vanish and derives nothing that
begins with a terminal. With such a terminal as the lookahead the engine would make the same endless
reductions, but it also has to come to the terminal, after a number of reductions that
does not depend on the stack.

- `Moves.replay`: a reduction is made on any lookahead that follows its head.
- `exists_shift`: the number of reductions before a first terminal.
- `parse?_halts`: parsing halts on every input.
-/

namespace ShiftReduce

variable {g : Grammar} {a : Augmented} {τ υ : Type}

namespace Augmented

/-- In a recurrence, what can come first in its nonterminal follows whatever is reduced. -/
theorem Recurrence.follows (ha : a.grammar.WellFormed) {c : Nat → Configuration StateId τ}
    {symbols : Nat → List Symbol} {n : NonterminalId} {i j : Nat} {between : List Symbol}
    (h : Recurrence a c symbols n i j between)
    (hcontracts : ∀ n, a.grammar.Contracts (symbols n) (symbols (n + 1)))
    {t : TerminalId} {after : List Symbol}
    (ht : a.grammar.Derives [.nonterminal n] (.terminal t :: after)) {k : Nat} (hik : i ≤ k)
    (hkj : k < j) {m : NonterminalId} {under : List Symbol}
    (hm : symbols (k + 1) = .nonterminal m :: under) : a.Follows m t := by
  obtain ⟨after', hd⟩ := h.derives
  obtain ⟨us, hus, -⟩ := Grammar.exists_over hcontracts (List.nil_append (symbols i)).symm
    h.stays (k + 1 - i)
  rw [Nat.add_sub_cancel' (Nat.le_succ_of_le hik)] at hus
  obtain ⟨vs, hvs, hover, -⟩ := Grammar.exists_over hcontracts hus
    (fun m' hm' => h.stays m' (by omega)) (j - (k + 1))
  rw [Nat.add_sub_cancel' hkj, h.grown] at hvs
  cases List.append_cancel_right hvs
  cases us with
  | nil =>
      have h1 := h.stays (k + 1) (by omega)
      rw [hus] at h1
      exact absurd h1 (Nat.lt_irrefl _)
  | cons X us =>
      rw [hus, List.cons_append, List.cons.injEq] at hm
      obtain ⟨rfl, -⟩ := hm
      -- the symbols in between derive what is on the stack, and the terminal comes after it
      have hrefl : a.grammar.Derives after' after' := .refl
      have hover' := hover.append (ht.append hrefl)
      rw [List.reverse_cons] at hover'
      have hlong := Relation.ReflTransGen.trans hd.to_reflTransGen hover'
      simp only [List.append_assoc, List.cons_append, List.nil_append] at hlong
      exact followSets_of_derives ha hlong

variable [Token τ] [Token υ]

/-! ## Reductions on another lookahead -/

theorem Moves.replay (ha : Augments g a) (hd : a.Deterministic)
    {c c' : Configuration StateId τ} (h : a.Moves c c') (hinput : c'.input = c.input)
    {Xs : List Symbol} (hspells : a.Spells c.states Xs) {d : Configuration StateId υ}
    (hstates : d.states = c.states) (hnodes : d.nodes.length = c.nodes.length)
    {l : TerminalId} (hl : a.grammar.Sees d.input l)
    (hfollow : ∀ n under, a.Spells c'.states (.nonterminal n :: under) → a.Follows n l) :
    ∃ d', d.step a.table.parseTable = .next d' ∧ d'.states = c'.states ∧
      d'.nodes.length = c'.nodes.length ∧ d'.input = d.input := by
  obtain ⟨dstates, dnodes, dinput⟩ := d
  cases hstates
  cases h with
  | @shift s s' below nodes x rest _ _ _ =>
      have hlen := congrArg List.length hinput
      exact absurd hlen (Nat.ne_of_lt (Nat.lt_succ_self rest.length))
  | @reduce s s' top below under nodes input _ r rule _ action found enough uncovered goto guard =>
      obtain ⟨hfinishes, hr, -, -⟩ := (claims_of_action? action).finishes ha found
      obtain ⟨-, hspells'⟩ := hspells.reduction ha hfinishes found uncovered goto
      have haction := hd.honoured (hfinishes.claims hr found (hfollow rule.head _ hspells'))
      refine ⟨_, (step_eq_next_iff ha.outer).mpr
        (.reduce hl haction found (hnodes ▸ enough) uncovered goto guard), rfl, ?_, rfl⟩
      rw [List.length_cons, List.length_cons, List.length_drop, List.length_drop, hnodes]

/-! ## The way to a first terminal -/

/-- On a terminal that can come first in a symbol, the engine makes a number of reductions
that does not depend on the stack and then shifts. -/
theorem exists_shift (ha : Augments g a) (hfit : g.MarkersFit) (hd : a.Deterministic)
    {t : TerminalId} {X : Symbol} (h : g.Leads t X) {x : τ} (hx : g.Names t (Token.name x)) :
    ∃ k, ∀ {s s' : StateId} {below : List StateId} {Xs : List Symbol} (nodes : List (Tree τ))
      (rest : List τ), a.Spells (s :: below) Xs → a.automaton.next? s X = some s' →
      ∃ d d', (⟨s :: below, nodes, x :: rest⟩ : Configuration StateId τ).run a.table.parseTable k =
          .running d ∧ d.input = x :: rest ∧ d.step a.table.parseTable = .next d' ∧
        d'.input = rest := by
  induction h with
  | here =>
      refine ⟨0, fun nodes rest _ hnext => ?_⟩
      exact ⟨_, _, rfl, rfl, step_shift ha hd hnext hx _ nodes rest, rfl⟩
  | @rule n before after Y rule null inner ih =>
      obtain ⟨k, hk⟩ := ih
      -- what stands before the symbol vanishes: its trees have no leaves
      obtain ⟨ts, hforest, hleaves⟩ :=
        exists_forest (w := ([] : List τ)) (Grammar.derives_iff_yields.mp null)
          (v := []) rfl List.Forall₂.nil
      refine ⟨Tree.forestSize ts + k, fun {s s' below Xs} nodes rest hspells hnext => ?_⟩
      obtain ⟨r, found, hrule, -, rfl, hbody⟩ := ha.exists_rule? rule
      have hrest : (⟨r, 0⟩ : Item).rest a.grammar = before ++ Y :: after := by
        rw [← hbody]
        exact body_eq hrule
      obtain ⟨ys, hys⟩ := inner.derives
      have hlead := ha.derives hys
      have hfirst : a.MayFollow (Y :: after) found.head t := by
        have hderives : a.grammar.Derives ([Y] ++ after) ((.terminal t :: ys) ++ after) :=
          Grammar.Derives.append hlead .refl
        exact .inl (ofSymbols_of_derives ha.outer hderives (ofSymbols_terminal _ t _))
      have hsees : a.grammar.Sees (x :: rest) t := ha.names_iff.mpr hx
      have hshort : found.body.length < UInt16.size := by
        rw [← body_eq hrule]
        exact (ha.markersFit hfit).length_body r
      obtain ⟨top, stack, -, hspells', ⟨y, hy, -, hafter⟩, hrun⟩ := hforest.runs ha hd
        (hforest.isNarrow hfit) nodes hspells (holds_of_next? ha hrule hnext) hrest hrule hshort
        hsees hfirst
      have hY : y.nextSymbol? a.grammar = some Y := by
        rw [Item.nextSymbol?_eq, hafter]
        rfl
      obtain ⟨s1, hnext1, -⟩ := hy.next? ha hY
      obtain ⟨d, d', hd1, hd2, hd3, hd4⟩ := hk (ts.reverse ++ nodes) rest hspells' hnext1
      rw [hleaves, List.nil_append] at hrun
      exact ⟨d, d', by rw [Configuration.run_add hrun, hd1], hd2, hd3, hd4⟩

/-- So it does wherever a nonterminal is awaited that the terminal can come first in. -/
theorem exists_shift_of_awaits (ha : Augments g a) (hfit : g.MarkersFit)
    (hd : a.Deterministic) {t : TerminalId} {n : NonterminalId} {after : List Symbol}
    (ht : g.Derives [.nonterminal n] (.terminal t :: after)) {x : τ}
    (hx : g.Names t (Token.name x)) :
    ∃ k, ∀ {c : Configuration StateId τ} {Xs : List Symbol} {rest : List τ},
      a.Spells c.states Xs → a.Awaits c.states n → c.input = x :: rest →
      ∃ d d', c.run a.table.parseTable k = .running d ∧ d.input = x :: rest ∧
        c.run a.table.parseTable (k + 1) = .running d' ∧ d'.input = rest := by
  obtain ⟨k, hk⟩ := exists_shift ha hfit hd (Grammar.leads_of_derives ht) hx
  refine ⟨k, fun {c Xs rest} hspells hawaits hinput => ?_⟩
  obtain ⟨states, nodes, input⟩ := c
  obtain ⟨s, below, y, rfl, hy, hn⟩ := hawaits
  cases hinput
  obtain ⟨s', hnext, -⟩ := hy.next? ha hn
  obtain ⟨d, d', hrun, hinput, hstep, hinput'⟩ := hk nodes rest hspells hnext
  exact ⟨d, d', hrun, hinput, Configuration.run_snoc hrun hstep, hinput'⟩

/-! ## No endless runs -/

/-- From the lower stack of a recurrence to the upper one on another lookahead. -/
theorem Recurrence.replay (ha : Augments g a) (hfit : g.MarkersFit) (hd : a.Deterministic)
    {c : Nat → Configuration StateId τ} {symbols : Nat → List Symbol}
    (hred : Reducing a c symbols) {n : NonterminalId} {i j : Nat} {between : List Symbol}
    (h : Recurrence a c symbols n i j between)
    {t : TerminalId} {after : List Symbol}
    (ht : a.grammar.Derives [.nonterminal n] (.terminal t :: after))
    {d : Configuration StateId υ} (hstates : d.states = (c i).states)
    (hnodes : d.nodes.length = (c i).nodes.length) (hl : a.grammar.Sees d.input t) {k : Nat}
    (hk : i + k ≤ j) :
    ∃ d', d.run a.table.parseTable k = .running d' ∧ d'.states = (c (i + k)).states ∧
      d'.nodes.length = (c (i + k)).nodes.length ∧ d'.input = d.input := by
  induction k with
  | zero => exact ⟨d, rfl, hstates, hnodes, rfl⟩
  | succ k ih =>
      obtain ⟨d1, hrun, hstates1, hnodes1, hinput1⟩ := ih (Nat.le_of_succ_le hk)
      obtain ⟨d2, hstep, hstates2, hnodes2, hinput2⟩ :=
        (hred.moves (i + k)).replay ha hd (hred.input (i + k)) (hred.spells (i + k)) hstates1
          hnodes1 (hinput1 ▸ hl) (by
            intro m under hm
            have hsame := (hred.spells (i + k + 1)).symbols_unique ha (ha.markersFit hfit) hm
            exact h.follows ha.outer hred.contracts ht (Nat.le_add_right i k) hk hsame)
      exact ⟨d2, Configuration.run_snoc hrun hstep, hstates2, hnodes2, hinput2.trans hinput1⟩

/-- A recurrence over a nonterminal that a terminal can come first in is impossible: the
engine would come to the terminal after as many reductions from both stacks. -/
theorem Recurrence.not_leads (ha : Augments g a) (hfit : g.MarkersFit) (hd : a.Deterministic)
    {c : Nat → Configuration StateId τ} {symbols : Nat → List Symbol}
    (hred : Reducing a c symbols) {n : NonterminalId} {i j : Nat} {between : List Symbol}
    (h : Recurrence a c symbols n i j between)
    {t : TerminalId} {after : List Symbol} (ht : g.Derives [.nonterminal n] (.terminal t :: after))
    (hn : n ∈ g.nonterminals.keys) : False := by
  have hname : g.Names t (Token.name (g.terminalName t)) :=
    Grammar.names_terminalName ha.inner
      (ht.allows_of_declared ha.inner hn _ List.mem_cons_self)
  obtain ⟨k, hk⟩ := exists_shift_of_awaits ha hfit hd ht hname
  -- the lower stack with any trees on it, and the terminal to be read
  let low : Configuration StateId String :=
    ⟨(c i).states, List.replicate (c i).nodes.length (.leaf (g.terminalName t)),
      [g.terminalName t]⟩
  obtain ⟨-, p, -, -, hread, hpinput⟩ := hk (c := low) (hred.spells i) h.lower rfl
  have hsees : a.grammar.Sees low.input t := ha.names_iff.mpr hname
  have hij : i + (j - i) = j := Nat.add_sub_cancel' (Nat.le_of_lt h.lt)
  obtain ⟨d, hrun, hstates, -, hinput⟩ := h.replay ha hfit hd hred (ha.derives ht) (d := low) rfl
    List.length_replicate hsees (Nat.le_of_eq hij)
  rw [hij] at hstates
  -- from the upper stack it is still to be read after `k` more steps
  obtain ⟨q, -, hlate, hqinput, -, -⟩ :=
    hk (c := d) (hstates ▸ hred.spells j) (hstates ▸ h.upper) hinput
  rw [← Configuration.run_add hrun] at hlate
  have hle : k + 1 ≤ j - i + k := by
    have := h.lt
    omega
  have hsuffix := (Configuration.run_input_antitone hread hlate hle).length_le
  rw [hqinput, hpinput] at hsuffix
  exact Nat.not_succ_le_zero _ hsuffix

/-- While the engine reads an input, whatever it waits for comes after what has been read. -/
theorem Sound.isLeftmost (ha : Augments g a) (hfit : g.MarkersFit) {w : List τ}
    {c : Configuration StateId τ} (hc : Sound g a w c) {n : NonterminalId}
    (h : a.Awaits c.states n) : g.IsLeftmost n := by
  obtain ⟨Xs, hspells, hforest, -⟩ := hc
  obtain ⟨after, hd⟩ := h.derives ha (ha.markersFit hfit) hspells
  obtain ⟨v, hv, -⟩ := hforest.yields
  exact ⟨v, after, hd.trans (hv.derives.append .refl)⟩

theorem Deterministic.halts (ha : Augments g a) (hfit : g.MarkersFit) (hd : a.Deterministic)
    (hlead : ∀ n, g.IsHiddenLeftRecursive n → g.IsLeftmost n →
      ∃ t after, g.Derives [.nonterminal n] (.terminal t :: after)) (w : List τ) :
    ∃ k r, a.table.parseTable.parse? k w = some r := by
  by_contra hnone
  obtain ⟨m, c, symbols, hred, hrun⟩ :=
    exists_reducing_of_endless ha (w := w) fun k r hr => hnone ⟨k, r, hr⟩
  obtain ⟨n, i, j, between, hrec⟩ := hred.exists_recurrence ha (ha.markersFit hfit) hd.acyclic
  have hinner := ha.isHiddenLeftRecursive (hrec.lower.ne_start ha)
    (hrec.hiddenLeftRecursive hred.contracts)
  have hsound : Sound g a w (c i) := (sound_of_run ha w).1 _ (hrun i)
  obtain ⟨t, after, ht⟩ := hlead n hinner (hsound.isLeftmost ha hfit hrec.lower)
  obtain ⟨_, _, _, _, hproper⟩ := hinner
  exact hrec.not_leads ha hfit hd hred ht (hproper.declared ha.inner)

end Augmented

/-- Where the empty body is reduced to `n` in a state that this leads back to, the engine goes
on forever. -/
theorem Configuration.run_of_loop {σ ν : Type} [BEq σ] [Token τ] {t : ParseTable σ ν}
    {s : σ} {n : ν} {x : τ} (haction : t.action s (some (Token.name x)) = .reduce n 0)
    (hgoto : t.goto s n = some s) (k : Nat) {top : σ}
    (htop : t.action top (some (Token.name x)) = .reduce n 0) (hnext : t.goto top n = some s)
    (below : List σ) (nodes : List (Tree τ)) (rest : List τ) :
    ∃ c, (⟨top :: below, nodes, x :: rest⟩ : Configuration σ τ).run t k = .running c := by
  induction k generalizing top below nodes with
  | zero => exact ⟨_, rfl⟩
  | succ k ih =>
      have hstep : (⟨top :: below, nodes, x :: rest⟩ : Configuration σ τ).step t =
          .next ⟨s :: top :: below, .node (t.symbolName n) [] :: nodes, x :: rest⟩ :=
        step_eq_iff.mpr (.reduce htop (Nat.zero_le _) rfl hnext (fun h => nomatch h.1))
      rw [Configuration.run_succ_of_next hstep]
      exact ih haction hgoto _ _

/-! ## Termination -/

theorem Grammar.AllProductive.leads (h : g.AllProductive) (ha : Augments g a)
    (hcyclic : a.cyclicNames = []) {n : NonterminalId} (hrec : g.IsHiddenLeftRecursive n) :
    ∃ t after, g.Derives [.nonterminal n] (.terminal t :: after) := by
  refine h.exists_first ha.inner ?_ hrec
  intro m hm
  exact Augmented.isAcyclic_of_cyclicNames ha hcyclic m (ha.derivesProperly hm)

/-- Without conflicts parsing halts on every input, if no marker overflows and some string that
begins with a terminal derives from every nonterminal that is left recursive behind symbols that
can vanish and has only terminals before it in some string that derives from the start symbol. -/
theorem parse?_halts [Token τ] (hg : g.IsBuilt) (hfit : g.MarkersFit) {t : ParsingTable}
    (ht : g.table .deny = .ok t)
    (hlead : ∀ n, g.IsHiddenLeftRecursive n → g.IsLeftmost n →
      ∃ t after, g.Derives [.nonterminal n] (.terminal t :: after)) (w : List τ) :
    ∃ k r, t.parseTable.parse? k w = some r := by
  obtain ⟨a, haug, rfl, hcyclic, hconflicts⟩ := table_eq_ok ht
  have ha := augments_of_augment hg.wellFormed haug
  exact (ha.deterministic (hconflicts rfl) hcyclic).halts ha hfit hlead w

theorem parse?_halts_nested : ∃ g t,
    Grammar.ofSource "S\na, b\nS -> a S b | ε\n" = .ok g ∧ g.MarkersFit ∧
      g.table .deny = .ok t ∧ ∃ k r, t.parseTable.parse? k ["b", "a", "a"] = some r := by
  obtain ⟨g, t, hg, ht, hcheck⟩ := exists_table "S\na, b\nS -> a S b | ε\n" .deny
    (fun g _ => decide g.MarkersFit && g.nonterminals.keys.all fun n =>
      (g.rulesOf n).any fun r => r.body.all Grammar.isTerminal) (by decide +kernel)
  rw [Bool.and_eq_true, decide_eq_true_eq] at hcheck
  obtain ⟨hfit, hrules⟩ := hcheck
  have hbuilt : g.IsBuilt := .inr ⟨_, hg⟩
  obtain ⟨a, haug, -, hcyclic, -⟩ := table_eq_ok ht
  have ha := augments_of_augment hbuilt.wellFormed haug
  have hprod := Grammar.allProductive_of_terminal_rules hrules
  exact ⟨g, t, hg, hfit, ht,
    parse?_halts hbuilt hfit ht (fun n hrec _ => hprod.leads ha hcyclic hrec) _⟩

/-- A table without conflicts on which the engine does not halt: `B` is left recursive behind
`A` and derives no string of terminals. -/
theorem exists_endless_without_conflicts : ∃ g t,
    Grammar.ofSource "S, A, B\nx, y, b\nS -> y A x | B\nA -> ε\nB -> A B b\n" = .ok g ∧
      g.table .deny = .ok t ∧ ∀ k, t.parseTable.parse? k ["x"] = none := by
  obtain ⟨g, t, hg, ht, hcheck⟩ :=
    exists_table "S, A, B\nx, y, b\nS -> y A x | B\nA -> ε\nB -> A B b\n" .deny
      (fun _ t => decide (t.parseTable.action t.parseTable.initialState (some "x") = .reduce 1 0 ∧
        t.parseTable.goto t.parseTable.initialState 1 = some 3 ∧
        t.parseTable.action 3 (some "x") = .reduce 1 0 ∧ t.parseTable.goto 3 1 = some 3))
      (by decide +kernel)
  obtain ⟨htop, hnext, haction, hgoto⟩ := of_decide_eq_true hcheck
  refine ⟨g, t, hg, ht, fun k => ?_⟩
  obtain ⟨c, hc⟩ := Configuration.run_of_loop (x := "x") haction hgoto k htop hnext [] [] []
  rw [ParseTable.parse?, Configuration.initial, hc]

/-- Parsing halts in particular if every nonterminal derives some string of terminals. -/
theorem parse?_halts_of_allProductive [Token τ] (hg : g.IsBuilt) (hfit : g.MarkersFit)
    {t : ParsingTable} (ht : g.table .deny = .ok t) (hprod : g.AllProductive) (w : List τ) :
    ∃ k r, t.parseTable.parse? k w = some r := by
  obtain ⟨a, haug, rfl, hcyclic, hconflicts⟩ := table_eq_ok ht
  have ha := augments_of_augment hg.wellFormed haug
  exact (ha.deterministic (hconflicts rfl) hcyclic).halts ha hfit
    (fun n hrec _ => hprod.leads ha hcyclic hrec) w

end ShiftReduce
