import ShiftReduce.Proofs.Grammar.Numbering
import ShiftReduce.Proofs.Grammar.Sources

/-! # Grammars that are extended

Whether declarations are made at once or in several phases makes no difference.

- `declare_withStart`, `performAll_withStart`: the choice of a start symbol has no part in what is
  replied to declarations.
- `Draft.BeginsWith`: the start symbol that a draft gets if none is chosen; declarations keep it.
- `performPhases_ofGrammar`: the phases after a grammar go on with the draft it was made of.
- `extend_eq_define`: a grammar that is extended is the one that is defined at once.
-/

namespace ShiftReduce

namespace Draft

variable {d : Draft} {n : NonterminalId}

/-! ## No declaration looks at the start symbol -/

@[simp] theorem terminals_withStart (d : Draft) (n : NonterminalId) :
    (d.withStart n).terminals = d.terminals := rfl

@[simp] theorem nonterminals_withStart (d : Draft) (n : NonterminalId) :
    (d.withStart n).nonterminals = d.nonterminals := rfl

@[simp] theorem nextTerminal_withStart (d : Draft) (n : NonterminalId) :
    (d.withStart n).nextTerminal = d.nextTerminal := rfl

@[simp] theorem nextNonterminal_withStart (d : Draft) (n : NonterminalId) :
    (d.withStart n).nextNonterminal = d.nextNonterminal := rfl

@[simp] theorem nextRule_withStart (d : Draft) (n : NonterminalId) :
    (d.withStart n).nextRule = d.nextRule := rfl

@[simp] theorem declares_withStart (d : Draft) (n : NonterminalId) :
    (d.withStart n).declares = d.declares := rfl

@[simp] theorem allows_withStart (d : Draft) (n : NonterminalId) (s : Symbol) :
    (d.withStart n).allows s = d.allows s := by
  cases s <;> rfl

@[simp] theorem existingRule?_withStart (d : Draft) (n : NonterminalId) :
    (d.withStart n).existingRule? = d.existingRule? := rfl

/-- The same reply, and the draft in which `n` is the start symbol unless another one is chosen. -/
def andStart {α : Type} (n : NonterminalId) (x : Except DefinitionError (α × Draft)) :
    Except DefinitionError (α × Draft) :=
  x.map fun p => (p.1, p.2.withStart n)

theorem declareTerminal_withStart (d : Draft) (n : NonterminalId) (name : String) :
    (d.withStart n).declareTerminal name = andStart n (d.declareTerminal name) := by
  rw [declareTerminal, declareTerminal, declares_withStart, nextTerminal_withStart]
  split_ifs <;> rfl

theorem declareNonterminal_withStart (d : Draft) (n : NonterminalId) (name : String) :
    (d.withStart n).declareNonterminal name = andStart n (d.declareNonterminal name) := by
  rw [declareNonterminal, declareNonterminal, declares_withStart, nextNonterminal_withStart]
  split_ifs <;> rfl

theorem addRule_withStart (d : Draft) (n : NonterminalId) (head : NonterminalId)
    (body : List Symbol) :
    (d.withStart n).addRule head body = andStart n (d.addRule head body) := by
  unfold addRule
  by_cases hhead : d.nonterminals.contains head = true
  · cases hbody : body.find? fun s => !d.allows s with
    | some s => simp [hhead, hbody, andStart, Except.map]
    | none =>
        cases hrule : d.existingRule? head body with
        | some r => simp [hhead, hbody, hrule, andStart, Except.map]
        | none =>
            by_cases hlimit : idLimit ≤ d.nextRule
            · simp [hhead, hbody, hrule, hlimit, andStart, Except.map]
            · simp only [nonterminals_withStart, allows_withStart, existingRule?_withStart,
                nextRule_withStart, hhead, hbody, hrule, hlimit]
              rfl
  · simp [hhead, andStart, Except.map]

theorem setStart_withStart (d : Draft) (n n' : NonterminalId) :
    (d.withStart n).setStart n' = (d.setStart n').map fun d => d.withStart n := by
  unfold setStart
  by_cases hdeclared : d.nonterminals.contains n' = true
  · simp [hdeclared, withStart, Except.map]
  · simp [hdeclared, Except.map]

theorem declare_withStart (d : Draft) (n : NonterminalId) (c : Declaration) :
    (d.withStart n).declare c = andStart n (d.declare c) := by
  cases c with
  | terminal name =>
      simp only [declare, declareTerminal_withStart]
      cases d.declareTerminal name <;> rfl
  | nonterminal name =>
      simp only [declare, declareNonterminal_withStart]
      cases d.declareNonterminal name <;> rfl
  | rule head body =>
      simp only [declare, addRule_withStart]
      cases d.addRule head body <;> rfl
  | start n' =>
      simp only [declare, setStart_withStart]
      cases d.setStart n' <;> rfl
  | fail reason => rfl

theorem performAll_withStart (d : Draft) (n : NonterminalId) (cs : List Declaration) :
    (d.withStart n).performAll cs =
      ((d.performAll cs).1, (d.performAll cs).2.withStart n) := by
  induction cs generalizing d with
  | nil => rfl
  | cons c cs ih =>
      have hperform :
          (d.withStart n).perform c = ((d.perform c).1, (d.perform c).2.withStart n) := by
        rw [perform, perform, declare_withStart]
        cases d.declare c <;> rfl
      simp only [performAll, hperform, ih]

/-! ## Where a draft begins -/

/-- The start symbol is `n` unless one has been chosen. -/
def BeginsWith (d : Draft) (n : NonterminalId) : Prop :=
  d.start = none → d.nonterminals.keys.head? = some n

theorem head?_keys_insert {α : Type} {m : OrderedMap Nat α} {k : Nat}
    (h : m.keys.head? = some k) (k' : Nat) (a : α) :
    (m.insert k' a).keys.head? = some k := by
  obtain ⟨es⟩ := m
  cases es with
  | nil => cases h
  | cons e es =>
      rw [OrderedMap.insert, OrderedMap.insertEntry]
      split_ifs with he
      · rw [← he]
        exact h
      · exact h

theorem BeginsWith.declare (h : d.BeginsWith n) {c : Declaration} {id : Option Nat} {d' : Draft}
    (hd : d.declare c = .ok (id, d')) : d'.BeginsWith n := by
  cases c with
  | terminal name =>
      obtain ⟨⟨t, e⟩, he, hd⟩ := exists_of_map_eq_ok hd
      cases hd
      obtain ⟨-, -, -, rfl⟩ := declareTerminal_eq_ok he
      exact h
  | nonterminal name =>
      obtain ⟨⟨n', e⟩, he, hd⟩ := exists_of_map_eq_ok hd
      cases hd
      obtain ⟨-, -, -, rfl⟩ := declareNonterminal_eq_ok he
      exact fun hnone => head?_keys_insert (h hnone) _ _
  | rule head body =>
      obtain ⟨⟨r, e⟩, he, hd⟩ := exists_of_map_eq_ok hd
      cases hd
      obtain ⟨-, -, ⟨-, rfl⟩ | ⟨-, -, rfl⟩⟩ := addRule_eq_ok he
      · exact h
      · exact h
  | start n' =>
      obtain ⟨e, he, hd⟩ := exists_of_map_eq_ok hd
      cases hd
      obtain ⟨-, rfl⟩ := setStart_eq_ok he
      rintro ⟨⟩
  | fail reason => cases hd

theorem BeginsWith.performAll (h : d.BeginsWith n) (cs : List Declaration) :
    (d.performAll cs).2.BeginsWith n := by
  induction cs generalizing d with
  | nil => exact h
  | cons c cs ih =>
      have hperform : (d.perform c).2.BeginsWith n := by
        unfold perform
        split
        · next hd => exact h.declare hd
        · exact h
      exact ih hperform

theorem beginsWith_of_finish {g : Grammar} (made : d.finish = .ok g) : d.BeginsWith g.start := by
  intro hnone
  obtain ⟨hs | ⟨-, hs⟩, -⟩ := finish_eq_ok made
  · rw [hnone] at hs
    cases hs
  · exact hs

theorem BeginsWith.finish_withStart (h : d.BeginsWith n) : (d.withStart n).finish = d.finish := by
  unfold finish
  cases hstart : d.start with
  | some s => simp [withStart, hstart]
  | none => simp [withStart, hstart, h hstart]

theorem BeginsWith.exists_finish (h : d.BeginsWith n) : ∃ g, d.finish = .ok g := by
  unfold finish
  cases hstart : d.start with
  | some s => exact ⟨_, rfl⟩
  | none =>
      rw [h hstart]
      exact ⟨_, rfl⟩

/-! ## Phases -/

theorem replies_append (d : Draft) (cs cs' : List Declaration) :
    (d.performAll (cs ++ cs')).1 =
      (d.performAll cs).1 ++ ((d.performAll cs).2.performAll cs').1 := by
  induction cs generalizing d with
  | nil => rfl
  | cons c cs ih => exact congrArg ((d.perform c).1 :: ·) (ih (d.perform c).2)

/-- A grammar that is taken up again replies as the draft it was made of, and what is made of it
is what would have been made of that draft. -/
theorem Reachable.performAll_ofGrammar (h : d.Reachable) {g : Grammar} (made : d.finish = .ok g)
    (cs : List Declaration) :
    ((ofGrammar g).performAll cs).1 = (d.performAll cs).1 ∧
      ((ofGrammar g).performAll cs).2.finish = (d.performAll cs).2.finish := by
  have hbegins := (beginsWith_of_finish made).performAll cs
  rw [h.counts.ofGrammar_eq h.wellFormed made, performAll_withStart]
  exact ⟨rfl, hbegins.finish_withStart⟩

theorem Reachable.performPhases_ofGrammar (h : d.Reachable) {g : Grammar}
    (made : d.finish = .ok g) (phases : List (List Declaration)) :
    ((ofGrammar g).performPhases phases).1.flatten = (d.performAll phases.flatten).1 ∧
      ((ofGrammar g).performPhases phases).2 = (d.performAll phases.flatten).2.finish := by
  induction phases generalizing d g with
  | nil => exact ⟨rfl, (h.performAll_ofGrammar made []).2⟩
  | cons cs phases ih =>
      obtain ⟨hreplies, hfinish⟩ := h.performAll_ofGrammar made cs
      obtain ⟨g', made'⟩ := ((beginsWith_of_finish made).performAll cs).exists_finish
      obtain ⟨hrest, hresult⟩ := ih (h.performAll cs) made'
      rw [List.flatten_cons, replies_append, performAll_append, ← hrest, ← hresult]
      rw [made'] at hfinish
      have hphases : (ofGrammar g).performPhases (cs :: phases) =
          ((d.performAll cs).1 :: ((ofGrammar g').performPhases phases).1,
            ((ofGrammar g').performPhases phases).2) := by
        simp [Draft.performPhases, hfinish, hreplies]
      rw [hphases]
      exact ⟨rfl, rfl⟩

end Draft

/-- A grammar that is extended is the one that all the declarations define at once, and every
declaration is replied to as it is then. The same is true of any number of phases. -/
theorem extend_eq_define {cs : List Declaration} {g : Grammar} (h : Grammar.define cs = .ok g) :
    (∀ cs', (∃ g', g.extend cs' = .ok g' ∧ Grammar.define (cs ++ cs') = .ok g') ∧
      (Draft.empty.performAll (cs ++ cs')).1 =
        (Draft.empty.performAll cs).1 ++ ((Draft.ofGrammar g).performAll cs').1) ∧
    ∀ phases : List (List Declaration),
      (Draft.empty.performPhases (cs :: phases)).2 = Grammar.define (cs ++ phases.flatten) ∧
      (Draft.empty.performPhases (cs :: phases)).1.flatten =
        (Draft.empty.performAll (cs ++ phases.flatten)).1 := by
  -- no counter, name or rule is lost between the phases, but the start symbol is chosen now
  have hreachable := Draft.Reachable.empty.performAll cs
  refine ⟨fun cs' => ⟨?_, ?_⟩, fun phases => ?_⟩
  · obtain ⟨-, hfinish⟩ := hreachable.performAll_ofGrammar h cs'
    obtain ⟨g', made⟩ := ((Draft.beginsWith_of_finish h).performAll cs').exists_finish
    refine ⟨g', hfinish.trans made, ?_⟩
    rw [Grammar.define, Draft.performAll_append]
    exact made
  · obtain ⟨hreplies, -⟩ := hreachable.performAll_ofGrammar h cs'
    rw [Draft.replies_append, hreplies]
  · obtain ⟨hreplies, hresult⟩ := hreachable.performPhases_ofGrammar h phases
    have hdefine : (Draft.empty.performAll cs).2.finish = .ok g := h
    rw [Grammar.define, Draft.performAll_append, Draft.replies_append, ← hreplies, ← hresult]
    simp only [Draft.performPhases, hdefine, List.flatten_cons, and_self]

/-- One of these is refused, and the start symbol is not chosen. -/
def firstPhase : List Declaration :=
  [.terminal "a", .nonterminal "S", .nonterminal "S", .rule 0 [.terminal 1]]

/-- A rule that is there already, three declarations that are refused, and another start symbol. -/
def secondPhase : List Declaration :=
  [.nonterminal "A", .rule 1 [.nonterminal 0], .rule 0 [.terminal 1], .rule 0 [.terminal 0],
    .terminal "A", .start 1, .start 5]

theorem extend_eq_define_refused : ∃ g g', Grammar.define firstPhase = .ok g ∧ g.start = 0 ∧
    g.extend secondPhase = .ok g' ∧ Grammar.define (firstPhase ++ secondPhase) = .ok g' ∧
    g'.start = 1 ∧
    ((Draft.ofGrammar g).performAll secondPhase).1 =
      [.ok (some 1), .ok (some 1), .ok (some 0), .error (.unknownSymbol (.terminal 0)),
        .error (.duplicateSymbol "A"), .ok none, .error (.unknownNonterminal 5)] := by
  have hdefine : Grammar.define firstPhase = .ok
      { terminals := ⟨[(0, ⟨0, "$"⟩), (1, ⟨1, "a"⟩)]⟩
        nonterminals := ⟨[(0, ⟨0, "S"⟩)]⟩
        rules := ⟨[(0, ⟨0, 0, [.terminal 1]⟩)]⟩
        start := 0 } := by decide +kernel
  obtain ⟨⟨g', hextend, hdefine'⟩, -⟩ := (extend_eq_define hdefine).1 secondPhase
  refine ⟨_, g', hdefine, rfl, hextend, hdefine', ?_, by decide +kernel⟩
  obtain ⟨hstart | ⟨hnone, -⟩, -⟩ := Draft.finish_eq_ok hextend
  · exact (Option.some.inj hstart).symm
  · cases hnone

end ShiftReduce
