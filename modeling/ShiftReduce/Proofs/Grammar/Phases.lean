import ShiftReduce.Grammar.InPlace
import ShiftReduce.Proofs.Grammar.Drafts

/-! # Declarations in phases

What every declaration does to the draft it is made on, and what follows for a grammar that is
made in any number of phases.

- `Drafting.exec_bind` and its companions: how a computation on a draft is carried out.
- `performInPlace_eq`: a declaration that fails has not written anything.
- `Draft.Reachable`: the drafts that declarations come upon, in whatever phase.
- `Draft.Accepts`, `WellFormed.accepts`: what an accepted declaration adds.
- `Draft.accepted`, `performPhases_accepted`: refused declarations can be left out.
- `declarations_wellFormed`: all of this together.
-/

namespace ShiftReduce

/-! ## Computations on a draft -/

namespace Drafting

variable {α β : Type} {d : Draft}

@[simp] theorem exec_pure (a : α) : exec (pure a) d = (.ok a, d) := rfl

@[simp] theorem exec_throw (e : DefinitionError) : exec (throw e : Drafting α) d = (.error e, d) :=
  rfl

@[simp] theorem exec_get : exec get d = (.ok d, d) := rfl

@[simp] theorem exec_modify (f : Draft → Draft) : exec (modify f) d = (.ok (), f d) := rfl

@[simp] theorem exec_bind (m : Drafting α) (f : α → Drafting β) : exec (m >>= f) d =
    match exec m d with
    | (.ok a, d) => exec (f a) d
    | (.error e, d) => (.error e, d) := by
  simp only [exec, ExceptT.run_bind, StateT.run_bind, Id.run_bind]
  rcases Id.run (StateT.run (ExceptT.run m) d) with ⟨e | a, d'⟩
  · rfl
  · rfl

@[simp] theorem exec_map (f : α → β) (m : Drafting α) : exec (f <$> m) d =
    match exec m d with
    | (.ok a, d) => (.ok (f a), d)
    | (.error e, d) => (.error e, d) := by
  rw [← bind_pure_comp, exec_bind]
  rfl

theorem exec_checkName (name : String) :
    exec (checkName name) d =
      if !isValidName name then (.error (.invalidName name), d)
      else if d.declares name then (.error (.duplicateSymbol name), d)
      else (.ok (), d) := by
  unfold checkName
  by_cases h : isValidName name = true
  · by_cases h' : d.declares name = true
    · simp [h, h']
    · simp [h, h']
  · simp [h]

theorem exec_successor (n : Nat) :
    exec (successor n) d =
      if idLimit ≤ n then (.error .tooManyEntries, d) else (.ok (n + 1), d) := by
  unfold successor
  split <;> rfl

theorem exec_checkBody (body : List Symbol) :
    exec (checkBody body) d =
      match body.find? (fun s => !d.allows s) with
      | some s => (.error (.unknownSymbol s), d)
      | none => (.ok (), d) := by
  induction body with
  | nil => rfl
  | cons s body ih =>
      rw [checkBody, List.find?_cons]
      by_cases h : d.allows s = true
      · simp [h, ih]
      · simp [h]

/-- The draft after a declaration: the new one, or the old one if there is none. -/
def settled (d : Draft) : Except DefinitionError (α × Draft) → Except DefinitionError α × Draft
  | .ok (a, d') => (.ok a, d')
  | .error e => (.error e, d)

theorem exec_declareTerminal (name : String) :
    exec (declareTerminal name) d = settled d (d.declareTerminal name) := by
  unfold declareTerminal Draft.declareTerminal
  by_cases hvalid : isValidName name = true
  · by_cases hname : d.declares name = true
    · simp [exec_checkName, hvalid, hname, settled]
    · by_cases hlimit : idLimit ≤ d.nextTerminal
      · simp [exec_checkName, exec_successor, hvalid, hname, hlimit, settled]
      · simp [exec_checkName, exec_successor, hvalid, hname, hlimit, settled]
  · simp [exec_checkName, hvalid, settled]

theorem exec_declareNonterminal (name : String) :
    exec (declareNonterminal name) d = settled d (d.declareNonterminal name) := by
  unfold declareNonterminal Draft.declareNonterminal
  by_cases hvalid : isValidName name = true
  · by_cases hname : d.declares name = true
    · simp [exec_checkName, hvalid, hname, settled]
    · by_cases hlimit : idLimit ≤ d.nextNonterminal
      · simp [exec_checkName, exec_successor, hvalid, hname, hlimit, settled]
      · simp [exec_checkName, exec_successor, hvalid, hname, hlimit, settled]
  · simp [exec_checkName, hvalid, settled]

theorem exec_addRule (head : NonterminalId) (body : List Symbol) :
    exec (addRule head body) d = settled d (d.addRule head body) := by
  unfold addRule Draft.addRule
  by_cases hhead : d.nonterminals.contains head = true
  · cases hbody : body.find? fun s => !d.allows s with
    | some s => simp [exec_checkBody, hhead, hbody, settled]
    | none =>
        cases hrule : d.existingRule? head body with
        | some r => simp [exec_checkBody, hhead, hbody, hrule, settled]
        | none =>
            by_cases hlimit : idLimit ≤ d.nextRule
            · simp [exec_checkBody, exec_successor, hhead, hbody, hrule, hlimit, settled]
            · simp [exec_checkBody, exec_successor, hhead, hbody, hrule, hlimit, settled]
  · simp [hhead, settled]

theorem exec_setStart (n : NonterminalId) :
    exec (setStart n) d = settled d ((d.setStart n).map fun d => ((), d)) := by
  unfold setStart Draft.setStart
  by_cases h : d.nonterminals.contains n = true
  · simp [h, settled, Except.map]
  · simp [h, settled, Except.map]

end Drafting

namespace Draft

/-- Every check comes before the first assignment. -/
theorem performInPlace_eq (d : Draft) (c : Declaration) :
    d.performInPlace c = d.perform c := by
  unfold performInPlace perform Drafting.declare Draft.declare
  cases c with
  | terminal name =>
      simp only [bind_pure_comp, Drafting.exec_map, Drafting.exec_declareTerminal]
      cases d.declareTerminal name <;> rfl
  | nonterminal name =>
      simp only [bind_pure_comp, Drafting.exec_map, Drafting.exec_declareNonterminal]
      cases d.declareNonterminal name <;> rfl
  | rule head body =>
      simp only [bind_pure_comp, Drafting.exec_map, Drafting.exec_addRule]
      cases d.addRule head body <;> rfl
  | start n =>
      simp only [bind_pure_comp, Drafting.exec_map, Drafting.exec_setStart]
      cases d.setStart n <;> rfl
  | fail reason => rfl

/-! ## What a declaration adds -/

/-- The drafts of all phases: each begins with the empty draft or with a grammar, and declarations
lead from one to the next. -/
inductive Reachable : Draft → Prop where
  | empty : Reachable empty
  | perform {d : Draft} (h : Reachable d) (c : Declaration) : Reachable (d.perform c).2
  | extend {d : Draft} {g : Grammar} (h : Reachable d) (made : d.finish = .ok g) :
      Reachable (ofGrammar g)

/-- What an accepted declaration does. A new entry has a number that no other one has and goes to
the end, and everything else stays. -/
inductive Accepts (d : Draft) : Declaration → Option Nat → Draft → Prop where
  | terminal {name : String} {t : TerminalId} (fresh : t ∉ d.terminals.keys) (room : t < idLimit) :
      Accepts d (.terminal name) (some t)
        { d with terminals := ⟨d.terminals.entries ++ [(t, ⟨t, name⟩)]⟩, nextTerminal := t + 1 }
  | nonterminal {name : String} {n : NonterminalId} (fresh : n ∉ d.nonterminals.keys)
      (room : n < idLimit) :
      Accepts d (.nonterminal name) (some n)
        { d with
          nonterminals := ⟨d.nonterminals.entries ++ [(n, ⟨n, name⟩)]⟩
          nextNonterminal := n + 1 }
  | rule {head : NonterminalId} {body : List Symbol} {r : RuleId} (fresh : r ∉ d.rules.keys)
      (room : r < idLimit) :
      Accepts d (.rule head body) (some r)
        { d with rules := ⟨d.rules.entries ++ [(r, ⟨r, head, body⟩)]⟩, nextRule := r + 1 }
  /-- A rule that is there already is not added again. -/
  | again {head : NonterminalId} {body : List Symbol} {r : RuleId}
      (found : (r, ⟨r, head, body⟩) ∈ d.rules.entries) :
      Accepts d (.rule head body) (some r) d
  | start {n : NonterminalId} (declared : n ∈ d.nonterminals.keys) :
      Accepts d (.start n) none { d with start := some n }

variable {d d' : Draft}

theorem Reachable.wellFormed (h : d.Reachable) : d.WellFormed := by
  induction h with
  | empty => exact wellFormed_empty
  | perform _ c ih => exact ih.perform c
  | extend _ made ih => exact wellFormed_ofGrammar (ih.finish made)

theorem Reachable.performAll (h : d.Reachable) (cs : List Declaration) :
    (d.performAll cs).2.Reachable := by
  induction cs generalizing d with
  | nil => exact h
  | cons c cs ih => exact ih (h.perform c)

theorem insert_eq {α : Type} {number : α → Nat} {m : OrderedMap Nat α} {next : Nat}
    (h : Numbered number m next) (a : α) : m.insert next a = ⟨m.entries ++ [(next, a)]⟩ :=
  congrArg OrderedMap.mk (h.entries_insert a)

theorem WellFormed.accepts_terminal (hd : d.WellFormed) {name : String} {t : TerminalId}
    (h : d.declareTerminal name = .ok (t, d')) : d.Accepts (.terminal name) (some t) d' := by
  obtain ⟨-, -, hroom⟩ := declareTerminal_isOk_iff.mp ⟨_, h⟩
  obtain ⟨-, -, rfl, rfl⟩ := declareTerminal_eq_ok h
  rw [insert_eq hd.terminals]
  exact .terminal hd.terminals.fresh hroom

theorem WellFormed.accepts_nonterminal (hd : d.WellFormed) {name : String} {n : NonterminalId}
    (h : d.declareNonterminal name = .ok (n, d')) :
    d.Accepts (.nonterminal name) (some n) d' := by
  obtain ⟨-, -, hroom⟩ := declareNonterminal_isOk_iff.mp ⟨_, h⟩
  obtain ⟨-, -, rfl, rfl⟩ := declareNonterminal_eq_ok h
  rw [insert_eq hd.nonterminals]
  exact .nonterminal hd.nonterminals.fresh hroom

theorem WellFormed.accepts_rule (hd : d.WellFormed) {head : NonterminalId} {body : List Symbol}
    {r : RuleId} (h : d.addRule head body = .ok (r, d')) :
    d.Accepts (.rule head body) (some r) d' := by
  obtain ⟨hhead, hbody, ⟨⟨x, hx, rfl, rfl, rfl⟩, rfl⟩ | ⟨hnew, rfl, rfl⟩⟩ := addRule_eq_ok h
  · obtain ⟨k, hk⟩ := OrderedMap.mem_values.mp hx
    have hid : k = x.id := hd.rules.ids _ hk
    rw [hid] at hk
    exact .again hk
  · have hroom : d.nextRule < idLimit := by
      apply ((addRule_isOk_iff (OrderedMap.contains_iff.mpr hhead) hbody).mp ⟨_, h⟩).resolve_left
      rintro ⟨x, hx, hrule⟩
      exact hnew x hx hrule
    rw [insert_eq hd.rules]
    exact .rule hd.rules.fresh hroom

theorem WellFormed.accepts (hd : d.WellFormed) {c : Declaration} {id : Option Nat}
    (h : d.declare c = .ok (id, d')) : d.Accepts c id d' := by
  cases c with
  | terminal name =>
      obtain ⟨⟨t, e⟩, he, h⟩ := exists_of_map_eq_ok h
      cases h
      exact hd.accepts_terminal he
  | nonterminal name =>
      obtain ⟨⟨n, e⟩, he, h⟩ := exists_of_map_eq_ok h
      cases h
      exact hd.accepts_nonterminal he
  | rule head body =>
      obtain ⟨⟨r, e⟩, he, h⟩ := exists_of_map_eq_ok h
      cases h
      exact hd.accepts_rule he
  | start n =>
      obtain ⟨e, he, h⟩ := exists_of_map_eq_ok h
      cases h
      obtain ⟨hn, rfl⟩ := setStart_eq_ok he
      exact .start hn
  | fail reason => cases h

/-! ## Refused declarations -/

/-- The declarations that were not refused, by the replies to them. -/
def accepted (cs : List Declaration) (replies : List Reply) : List Declaration :=
  ((cs.zip replies).filter (·.2.isOk)).map Prod.fst

theorem performAll_accepted (d : Draft) (cs : List Declaration) :
    d.performAll (accepted cs (d.performAll cs).1) =
      ((d.performAll cs).1.filter (·.isOk), (d.performAll cs).2) := by
  induction cs generalizing d with
  | nil => rfl
  | cons c cs ih =>
      cases hc : d.declare c with
      | error e =>
          have hperform : d.perform c = (.error e, d) := by rw [perform, hc]
          simp only [performAll, hperform]
          exact ih d
      | ok p =>
          obtain ⟨id, d1⟩ := p
          have hperform : d.perform c = (.ok id, d1) := by rw [perform, hc]
          have haccepted : accepted (c :: cs) (.ok id :: (d1.performAll cs).1) =
              c :: accepted cs (d1.performAll cs).1 := rfl
          simp only [performAll, hperform, haccepted, ih d1]
          rfl

/-- Without the refused declarations of each phase the other ones get the same replies, and the
grammar is the same. -/
theorem performPhases_accepted (d : Draft) (phases : List (List Declaration)) :
    d.performPhases (List.zipWith accepted phases (d.performPhases phases).1) =
      ((d.performPhases phases).1.map (·.filter (·.isOk)), (d.performPhases phases).2) := by
  induction phases generalizing d with
  | nil => rfl
  | cons cs phases ih =>
      cases hfinish : (d.performAll cs).2.finish with
      | error e => simp [performPhases, hfinish, performAll_accepted]
      | ok g => simp [performPhases, hfinish, performAll_accepted, ih (ofGrammar g)]

theorem Reachable.performPhases (h : d.Reachable) {phases : List (List Declaration)} {g : Grammar}
    (hg : (d.performPhases phases).2 = .ok g) :
    ∃ d' : Draft, d'.Reachable ∧ d'.finish = .ok g := by
  induction phases generalizing d with
  | nil => exact ⟨d, h, hg⟩
  | cons cs phases ih =>
      have hcs := h.performAll cs
      cases hfinish : (d.performAll cs).2.finish with
      | error e => simp [Draft.performPhases, hfinish] at hg
      | ok g1 =>
          simp only [Draft.performPhases, hfinish] at hg
          exact ih (hcs.extend hfinish) hg

end Draft

/-- A grammar that declarations make in any number of phases is well-formed, and without the
refused declarations of each phase it is the same, with the same replies to the other ones. A
declaration on the draft of any phase, carried out in place, leaves the draft as it was if it
fails; otherwise it adds its entry under a number that was not in use, and changes nothing else. -/
theorem declarations_wellFormed :
    (∀ phases g, (Draft.empty.performPhases phases).2 = .ok g → g.WellFormed) ∧
    (∀ phases, Draft.empty.performPhases
        (List.zipWith Draft.accepted phases (Draft.empty.performPhases phases).1) =
      ((Draft.empty.performPhases phases).1.map (·.filter (·.isOk)),
        (Draft.empty.performPhases phases).2)) ∧
    ∀ d : Draft, d.Reachable → ∀ c reply d', d.performInPlace c = (reply, d') →
      d.perform c = (reply, d') ∧
        match reply with
        | .error _ => d' = d
        | .ok id => d.Accepts c id d' := by
  refine ⟨?_, Draft.performPhases_accepted .empty, ?_⟩
  · intro phases g hg
    obtain ⟨d, hd, hmade⟩ := Draft.Reachable.empty.performPhases hg
    exact hd.wellFormed.finish hmade
  · intro d hd c reply d' h
    rw [Draft.performInPlace_eq] at h
    refine ⟨h, ?_⟩
    unfold Draft.perform at h
    split at h
    · next hc =>
        cases h
        exact hd.wellFormed.accepts hc
    · cases h
      rfl

/-- Two phases in which declarations fail, and a draft on which one fails and one does not. -/
theorem declarations_wellFormed_two_phases :
    Grammar.WellFormed
      { terminals := ⟨[(0, ⟨0, "$"⟩), (1, ⟨1, "a"⟩)]⟩
        nonterminals := ⟨[(0, ⟨0, "S"⟩), (1, ⟨1, "A"⟩)]⟩
        rules := ⟨[(0, ⟨0, 0, [.terminal 1]⟩), (1, ⟨1, 1, []⟩)]⟩
        start := 1 } ∧
    (Draft.empty.perform (.nonterminal "S")).2.performInPlace (.terminal "S") =
      (.error (.duplicateSymbol "S"), (Draft.empty.perform (.nonterminal "S")).2) ∧
    (Draft.empty.perform (.nonterminal "S")).2.Accepts (.terminal "a") (some 1)
      ((Draft.empty.perform (.nonterminal "S")).2.performInPlace (.terminal "a")).2 := by
  have hS : (Draft.empty.perform (.nonterminal "S")).2.Reachable :=
    Draft.Reachable.empty.perform (.nonterminal "S")
  have hrefused : ((Draft.empty.perform (.nonterminal "S")).2.performInPlace (.terminal "S")).1 =
      .error (.duplicateSymbol "S") := by decide +kernel
  have haccepted : ((Draft.empty.perform (.nonterminal "S")).2.performInPlace (.terminal "a")).1 =
      .ok (some 1) := by decide +kernel
  refine ⟨?_, ?_, ?_⟩
  · apply declarations_wellFormed.1
      [[.nonterminal "S", .terminal "a", .terminal "a", .rule 0 [.terminal 1],
        .rule 0 [.terminal 0], .rule 0 [.terminal 1]],
       [.nonterminal "S", .nonterminal "A", .rule 1 [], .start 1, .start 7]]
    decide +kernel
  · have h := (declarations_wellFormed.2.2 _ hS _ _ _ (Prod.ext hrefused rfl)).2
    exact Prod.ext hrefused h
  · exact (declarations_wellFormed.2.2 _ hS _ _ _ (Prod.ext haccepted rfl)).2

end ShiftReduce
