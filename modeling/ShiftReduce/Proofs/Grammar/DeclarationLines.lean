import Mathlib.Data.List.Nodup
import ShiftReduce.Grammar.Format
import ShiftReduce.Proofs.Grammar.Drafts

/-! # Reading the declarations of a grammar source

The reader accepts the texts of `Grammar.Format`, and what it makes of one is what the text says.
Here this is proved of the two lines that declare the symbols.

- `SucceedsIff`: when a computation succeeds, and with what. There is one such lemma for each part
  of the reader.
- `Draft.Lists`: the draft of the part of the content that has been read so far.
- `Draft.declareNonterminals_succeeds`, `Draft.declareTerminals_succeeds`: the names of a line.
-/

namespace ShiftReduce

/-! ## When a computation succeeds -/

/-- Succeeds if `p` holds and only then, with a value that satisfies `q`. -/
def SucceedsIff {ε α : Type} (x : Except ε α) (p : Prop) (q : α → Prop) : Prop :=
  match x with
  | .ok a => p ∧ q a
  | .error _ => ¬ p

namespace SucceedsIff

variable {ε α : Type} {x : Except ε α} {p : Prop} {q : α → Prop}

theorem of_iff (h : (∃ a, x = .ok a) ↔ p) (hq : ∀ a, x = .ok a → q a) : SucceedsIff x p q := by
  cases x with
  | ok a => exact ⟨h.mp ⟨a, rfl⟩, hq a rfl⟩
  | error e =>
      intro hp
      obtain ⟨a, ha⟩ := h.mpr hp
      cases ha

theorem imp {p' : Prop} {q' : α → Prop} (h : SucceedsIff x p q) (hp : p ↔ p')
    (hq : ∀ a, q a → q' a) : SucceedsIff x p' q' := by
  cases x with
  | ok a => exact ⟨hp.mp h.1, hq a h.2⟩
  | error e => exact fun hp' => h (hp.mpr hp')

end SucceedsIff

/-! ## Contents -/

theorem ne_endOfInputName {name : String} (h : isValidName name = true) :
    name ≠ endOfInputName := by
  rintro rfl
  revert h
  decide

theorem isEpsilon_of_isValidName {name : String} (h : isValidName name = true) :
    isEpsilon name = false := by
  rw [← Bool.not_eq_true]
  intro hepsilon
  simp only [isEpsilon, Bool.or_eq_true, decide_eq_true_eq] at hepsilon
  rcases hepsilon with rfl | rfl
  · revert h
    decide
  · revert h
    decide

namespace Content

variable {c : Content}

/-- A draft of the content can be made. -/
def IsLoadable (c : Content) : Prop := c.IsValid ∧ c.HasRoom

theorem eraseDups_concat {α : Type} [BEq α] [LawfulBEq α] [DecidableEq α] (l : List α) (a : α) :
    (l ++ [a]).eraseDups = if a ∈ l then l.eraseDups else l.eraseDups ++ [a] := by
  rw [List.eraseDups_append]
  by_cases h : a ∈ l
  · simp [List.removeAll, h]
  · simp [List.removeAll, h, List.eraseDups_cons]

theorem length_eraseDups_le_append {α : Type} [BEq α] [LawfulBEq α] (l l' : List α) :
    l.eraseDups.length ≤ (l ++ l').eraseDups.length := by
  rw [List.eraseDups_append, List.length_append]
  exact Nat.le_add_right _ _

/-- What has been read before the rest can be loaded if all of it can. -/
theorem IsLoadable.of_append_names {N N' T T' : List String}
    (h : IsLoadable ⟨N ++ N', T ++ T', []⟩) : IsLoadable ⟨N, T, []⟩ := by
  obtain ⟨hvalid, hroom⟩ := h
  have hsub : (N ++ T).Sublist ((N ++ N') ++ (T ++ T')) :=
    (List.sublist_append_left N N').append (List.sublist_append_left T T')
  have hN := hroom.nonterminals
  have hT := hroom.terminals
  simp only [List.length_append] at hN hT
  refine ⟨⟨?_, hvalid.distinct.sublist hsub, by simp, by simp⟩, ⟨?_, ?_, hroom.rules⟩⟩
  · intro name hname
    exact hvalid.names name (hsub.subset hname)
  · show N.length ≤ idLimit
    omega
  · show T.length < idLimit
    omega

theorem IsLoadable.of_append_alternatives {N T : List String} {A A' : List (String × List String)}
    (h : IsLoadable ⟨N, T, A ++ A'⟩) : IsLoadable ⟨N, T, A⟩ := by
  obtain ⟨hvalid, hroom⟩ := h
  refine ⟨⟨hvalid.names, hvalid.distinct, ?_, ?_⟩, ⟨hroom.nonterminals, hroom.terminals, ?_⟩⟩
  · intro p hp
    exact hvalid.heads p (List.mem_append_left A' hp)
  · intro p hp
    exact hvalid.bodies p (List.mem_append_left A' hp)
  · have hrules : (rules ⟨N, T, A ++ A'⟩).length ≤ idLimit := hroom.rules
    rw [rules, List.map_append] at hrules
    exact Nat.le_trans (length_eraseDups_le_append _ _) hrules

end Content

/-! ## Drafts and their names -/

namespace Draft

def symbolName (d : Draft) : Symbol → String
  | .terminal t =>
      match d.terminals.find? t with
      | some x => x.name
      | none => ""
  | .nonterminal n =>
      match d.nonterminals.find? n with
      | some x => x.name
      | none => ""

def namedRules (d : Draft) : List (String × List String) :=
  d.rules.values.map fun r => (d.symbolName (.nonterminal r.head), r.body.map d.symbolName)

/-- The draft of a content. -/
structure Lists (d : Draft) (c : Content) : Prop where
  wellFormed : d.WellFormed
  loadable : c.IsLoadable
  nonterminals : d.nonterminals.values.map (·.name) = c.nonterminals
  terminals : d.terminals.values.map (·.name) = endOfInputName :: c.terminals
  rules : d.namedRules = c.rules
  start : d.start = none
  nextNonterminal : d.nextNonterminal = c.nonterminals.length
  nextTerminal : d.nextTerminal = c.terminals.length + 1
  nextRule : d.nextRule = c.rules.length

variable {d d' : Draft} {c : Content} {N T : List String} {A : List (String × List String)}

theorem lists_empty : empty.Lists ⟨[], [], []⟩ where
  wellFormed := wellFormed_empty
  loadable := ⟨⟨by simp, List.nodup_nil, by simp, by simp⟩, ⟨by decide, by decide, by decide⟩⟩
  nonterminals := rfl
  terminals := rfl
  rules := rfl
  start := rfl
  nextNonterminal := rfl
  nextTerminal := rfl
  nextRule := rfl

/-! ## Declaration lines -/

theorem Lists.declares_iff (h : d.Lists c) {name : String} (hname : isValidName name = true) :
    d.declares name = true ↔ name ∈ c.nonterminals ++ c.terminals := by
  have hne := ne_endOfInputName hname
  have hiff : d.declares name = true ↔
      name ∈ d.terminals.values.map (·.name) ∨ name ∈ d.nonterminals.values.map (·.name) := by
    simp [declares]
  rw [hiff, h.terminals, h.nonterminals, List.mem_cons, List.mem_append]
  tauto

theorem Lists.isLoadable_nonterminal (h : d.Lists ⟨N, T, []⟩) (name : String) :
    Content.IsLoadable ⟨N ++ [name], T, []⟩ ↔
      isValidName name = true ∧ ¬ d.declares name = true ∧ d.nextNonterminal < idLimit := by
  have hlength : d.nextNonterminal = N.length := h.nextNonterminal
  constructor
  · rintro ⟨hvalid, hroom⟩
    have hname : isValidName name = true := hvalid.names name (by simp)
    have hdistinct := hvalid.distinct
    rw [List.append_assoc, List.singleton_append, List.nodup_middle, List.nodup_cons] at hdistinct
    have hlimit : (N ++ [name]).length ≤ idLimit := hroom.nonterminals
    rw [List.length_append, List.length_singleton] at hlimit
    refine ⟨hname, ?_, ?_⟩
    · rw [h.declares_iff hname]
      exact hdistinct.1
    · rw [hlength]
      exact Nat.lt_of_succ_le hlimit
  · rintro ⟨hname, hfresh, hlimit⟩
    rw [h.declares_iff hname] at hfresh
    rw [hlength] at hlimit
    obtain ⟨hvalid, hroom⟩ := h.loadable
    refine ⟨⟨?_, ?_, by simp, by simp⟩, ⟨?_, hroom.terminals, hroom.rules⟩⟩
    · intro w hw
      rw [List.append_assoc, List.singleton_append, List.mem_append, List.mem_cons] at hw
      rcases hw with hw | rfl | hw
      · exact hvalid.names w (List.mem_append_left T hw)
      · exact hname
      · exact hvalid.names w (List.mem_append_right N hw)
    · rw [List.append_assoc, List.singleton_append, List.nodup_middle, List.nodup_cons]
      exact ⟨hfresh, hvalid.distinct⟩
    · show (N ++ [name]).length ≤ idLimit
      rw [List.length_append, List.length_singleton]
      exact hlimit

theorem Lists.isLoadable_terminal (h : d.Lists ⟨N, T, []⟩) (name : String) :
    Content.IsLoadable ⟨N, T ++ [name], []⟩ ↔
      isValidName name = true ∧ ¬ d.declares name = true ∧ d.nextTerminal < idLimit := by
  have hlength : d.nextTerminal = T.length + 1 := h.nextTerminal
  constructor
  · rintro ⟨hvalid, hroom⟩
    have hname : isValidName name = true := hvalid.names name (by simp)
    have hdistinct := hvalid.distinct
    rw [← List.append_assoc, List.nodup_append] at hdistinct
    have hlimit : (T ++ [name]).length < idLimit := hroom.terminals
    rw [List.length_append, List.length_singleton] at hlimit
    refine ⟨hname, ?_, ?_⟩
    · rw [h.declares_iff hname]
      intro hmem
      exact hdistinct.2.2 name hmem name (List.mem_singleton.mpr rfl) rfl
    · rw [hlength]
      exact hlimit
  · rintro ⟨hname, hfresh, hlimit⟩
    rw [h.declares_iff hname] at hfresh
    rw [hlength] at hlimit
    obtain ⟨hvalid, hroom⟩ := h.loadable
    refine ⟨⟨?_, ?_, by simp, by simp⟩, ⟨hroom.nonterminals, ?_, hroom.rules⟩⟩
    · intro w hw
      rw [← List.append_assoc, List.mem_append, List.mem_singleton] at hw
      rcases hw with hw | rfl
      · exact hvalid.names w hw
      · exact hname
    · rw [← List.append_assoc]
      exact hvalid.distinct.append (List.nodup_singleton name)
        (List.disjoint_singleton.mpr hfresh)
    · show (T ++ [name]).length < idLimit
      rw [List.length_append, List.length_singleton]
      exact hlimit

/-- No rules have been read before the declarations are. -/
theorem Lists.rules_nil (h : d.Lists ⟨N, T, []⟩) : d.rules.values = [] := by
  have hrules : d.namedRules = [] := h.rules
  exact List.map_eq_nil_iff.mp hrules

theorem Lists.declareNonterminal (h : d.Lists ⟨N, T, []⟩) {name : String} {n : NonterminalId}
    (hd : d.declareNonterminal name = .ok (n, d'))
    (hload : Content.IsLoadable ⟨N ++ [name], T, []⟩) : d'.Lists ⟨N ++ [name], T, []⟩ := by
  have hwf := h.wellFormed.declareNonterminal hd
  obtain ⟨-, -, -, rfl⟩ := declareNonterminal_eq_ok hd
  have hvalues := h.wellFormed.nonterminals.values_insert ⟨d.nextNonterminal, name⟩
  refine ⟨hwf, hload, ?_, h.terminals, ?_, h.start, ?_, h.nextTerminal, h.nextRule⟩
  · show List.map _ (OrderedMap.values _) = _
    rw [hvalues, List.map_append, h.nonterminals]
    rfl
  · show List.map _ d.rules.values = _
    rw [h.rules_nil]
    rfl
  · show d.nextNonterminal + 1 = (N ++ [name]).length
    rw [h.nextNonterminal, List.length_append]
    rfl

theorem Lists.declareTerminal (h : d.Lists ⟨N, T, []⟩) {name : String} {t : TerminalId}
    (hd : d.declareTerminal name = .ok (t, d'))
    (hload : Content.IsLoadable ⟨N, T ++ [name], []⟩) : d'.Lists ⟨N, T ++ [name], []⟩ := by
  have hwf := h.wellFormed.declareTerminal hd
  obtain ⟨-, -, -, rfl⟩ := declareTerminal_eq_ok hd
  have hvalues := h.wellFormed.terminals.values_insert ⟨d.nextTerminal, name⟩
  refine ⟨hwf, hload, h.nonterminals, ?_, ?_, h.start, h.nextNonterminal, ?_, h.nextRule⟩
  · show List.map _ (OrderedMap.values _) = _
    rw [hvalues, List.map_append, h.terminals]
    rfl
  · show List.map _ d.rules.values = _
    rw [h.rules_nil]
    rfl
  · show d.nextTerminal + 1 = (T ++ [name]).length + 1
    rw [h.nextTerminal, List.length_append]
    rfl

theorem declareNonterminal_succeeds (h : d.Lists ⟨N, T, []⟩) (name : String) :
    SucceedsIff (d.declareNonterminal name) (Content.IsLoadable ⟨N ++ [name], T, []⟩)
      fun p => p.2.Lists ⟨N ++ [name], T, []⟩ := by
  have hiff : (∃ p, d.declareNonterminal name = .ok p) ↔
      Content.IsLoadable ⟨N ++ [name], T, []⟩ := by
    rw [declareNonterminal_isOk_iff, h.isLoadable_nonterminal]
  apply SucceedsIff.of_iff hiff
  intro p hp
  exact h.declareNonterminal hp (hiff.mp ⟨p, hp⟩)

theorem declareTerminal_succeeds (h : d.Lists ⟨N, T, []⟩) (name : String) :
    SucceedsIff (d.declareTerminal name) (Content.IsLoadable ⟨N, T ++ [name], []⟩)
      fun p => p.2.Lists ⟨N, T ++ [name], []⟩ := by
  have hiff : (∃ p, d.declareTerminal name = .ok p) ↔
      Content.IsLoadable ⟨N, T ++ [name], []⟩ := by
    rw [declareTerminal_isOk_iff, h.isLoadable_terminal]
  apply SucceedsIff.of_iff hiff
  intro p hp
  exact h.declareTerminal hp (hiff.mp ⟨p, hp⟩)

theorem declareNonterminals_succeeds (h : d.Lists ⟨N, T, []⟩) (names : List String) :
    SucceedsIff (declareNonterminals d names) (Content.IsLoadable ⟨N ++ names, T, []⟩)
      fun d' => d'.Lists ⟨N ++ names, T, []⟩ := by
  induction names generalizing d N with
  | nil =>
      rw [List.append_nil]
      exact ⟨h.loadable, h⟩
  | cons name names ih =>
      rw [declareNonterminals, List.append_cons]
      have hd := declareNonterminal_succeeds h name
      cases hdecl : d.declareNonterminal name with
      | error e =>
          rw [hdecl] at hd
          intro hload
          have hprefix : Content.IsLoadable ⟨(N ++ [name]) ++ names, T ++ [], []⟩ := by
            rw [List.append_nil]
            exact hload
          exact hd hprefix.of_append_names
      | ok p =>
          rw [hdecl] at hd
          exact ih hd.2

theorem declareTerminals_succeeds (h : d.Lists ⟨N, T, []⟩) (names : List String) :
    SucceedsIff (declareTerminals d names) (Content.IsLoadable ⟨N, T ++ names, []⟩)
      fun d' => d'.Lists ⟨N, T ++ names, []⟩ := by
  induction names generalizing d T with
  | nil =>
      rw [List.append_nil]
      exact ⟨h.loadable, h⟩
  | cons name names ih =>
      rw [declareTerminals, List.append_cons]
      have hd := declareTerminal_succeeds h name
      cases hdecl : d.declareTerminal name with
      | error e =>
          rw [hdecl] at hd
          intro hload
          have hprefix : Content.IsLoadable ⟨N ++ [], (T ++ [name]) ++ names, []⟩ := by
            rw [List.append_nil]
            exact hload
          exact hd hprefix.of_append_names
      | ok p =>
          rw [hdecl] at hd
          exact ih hd.2

end Draft

end ShiftReduce
