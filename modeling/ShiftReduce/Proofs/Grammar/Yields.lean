import ShiftReduce.Grammar.Derivation
import ShiftReduce.Grammar.WellFormed

/-! # Derivations, symbol by symbol

A derivation rewrites one place of a string after the other. Its result can also
be told all at once: each symbol of the string either stays or is replaced by
what the body of one of its rules becomes.

- `Grammar.Yields`: this big-step form.
- `derives_iff_yields`: both forms agree.
- `Derives.split`: what derives from two strings in a row derives from each in
  turn.
- `Derives.rightmost`: a string of terminals derives by rightmost steps as well.
- `Derives.allows`: only declared symbols derive from declared symbols.
- `Leads`: the ways in which a terminal comes to be the first symbol.
-/

namespace ShiftReduce

/-- A member of two lists in a row stands in one of them. -/
theorem append_eq_append_cons {α : Type} {xs ys before after : List α} {x : α}
    (h : xs ++ ys = before ++ x :: after) :
    (∃ w, xs = before ++ x :: w ∧ after = w ++ ys) ∨
      ∃ w, before = xs ++ w ∧ ys = w ++ x :: after := by
  rcases List.append_eq_append_iff.mp h with ⟨w, rfl, hys⟩ | ⟨w, rfl, hw⟩
  · exact .inr ⟨w, rfl, hys⟩
  · cases w with
    | nil => exact .inr ⟨[], by simp, hw.symm⟩
    | cons y w =>
        rw [List.cons_append, List.cons.injEq] at hw
        obtain ⟨rfl, rfl⟩ := hw
        exact .inl ⟨w, rfl, rfl⟩

namespace Grammar

variable {g : Grammar}

/-- The string that each symbol, on its own, becomes part of. -/
inductive Yields (g : Grammar) : List Symbol → List Symbol → Prop where
  | nil : Yields g [] []
  | keep (s : Symbol) {us vs : List Symbol} (rest : Yields g us vs) :
      Yields g (s :: us) (s :: vs)
  | replace {n : NonterminalId} {body us vs ws : List Symbol} (rule : g.Produces n body)
      (inner : Yields g body vs) (rest : Yields g us ws) :
      Yields g (.nonterminal n :: us) (vs ++ ws)

namespace Yields

theorem refl : ∀ us : List Symbol, g.Yields us us
  | [] => .nil
  | s :: us => .keep s (refl us)

theorem append {us vs us' vs' : List Symbol} (h : g.Yields us vs) (h' : g.Yields us' vs') :
    g.Yields (us ++ us') (vs ++ vs') := by
  induction h with
  | nil => exact h'
  | keep s _ ih => exact .keep s ih
  | replace rule inner _ _ ih =>
      rw [List.cons_append, List.append_assoc]
      exact .replace rule inner ih

theorem split {us us' ws : List Symbol} (h : g.Yields (us ++ us') ws) :
    ∃ vs vs', ws = vs ++ vs' ∧ g.Yields us vs ∧ g.Yields us' vs' := by
  induction us generalizing ws with
  | nil => exact ⟨[], ws, rfl, .nil, h⟩
  | cons s us ih =>
      rw [List.cons_append] at h
      cases h with
      | keep _ rest =>
          obtain ⟨vs, vs', rfl, h1, h2⟩ := ih rest
          exact ⟨s :: vs, vs', rfl, .keep s h1, h2⟩
      | @replace n body _ inner _ rule hinner rest =>
          obtain ⟨vs, vs', rfl, h1, h2⟩ := ih rest
          exact ⟨inner ++ vs, vs', (List.append_assoc ..).symm, .replace rule hinner h1, h2⟩

theorem derives {us vs : List Symbol} (h : g.Yields us vs) : g.Derives us vs := by
  induction h with
  | nil => exact .refl
  | keep s _ ih => exact Derives.append (u := [s]) (v := [s]) .refl ih
  | replace rule _ _ ih1 ih2 =>
      exact Derives.append (u := [_]) (rule.derives.trans ih1) ih2

/-- One more rule at the front of a derivation. -/
theorem head {us vs ws : List Symbol} (h : g.Expands us vs) (h' : g.Yields vs ws) :
    g.Yields us ws := by
  cases h with
  | rule before after rule =>
      rw [List.append_assoc] at h'
      obtain ⟨w1, w2, rfl, h1, h2⟩ := h'.split
      obtain ⟨w3, w4, rfl, h3, h4⟩ := h2.split
      exact h1.append (.replace rule h3 h4)

end Yields

theorem derives_iff_yields {us vs : List Symbol} : g.Derives us vs ↔ g.Yields us vs := by
  constructor
  · intro h
    induction h using Relation.ReflTransGen.head_induction_on with
    | refl => exact .refl vs
    | head h1 _ ih => exact .head h1 ih
  · exact Yields.derives

/-! ## What follows for derivations -/

/-- A single nonterminal is replaced by the body of one of its rules. -/
theorem Expands.produces {n : NonterminalId} {vs : List Symbol}
    (h : g.Expands [.nonterminal n] vs) : g.Produces n vs := by
  generalize hu : [Symbol.nonterminal n] = us at h
  cases h with
  | @rule before after k body hp =>
      cases before with
      | nil =>
          rw [List.nil_append, List.cons.injEq, Symbol.nonterminal.injEq] at hu
          obtain ⟨rfl, rfl⟩ := hu
          rw [List.nil_append, List.append_nil]
          exact hp
      | cons s before => simp at hu

theorem Derives.split {us us' ws : List Symbol} (h : g.Derives (us ++ us') ws) :
    ∃ vs vs', ws = vs ++ vs' ∧ g.Derives us vs ∧ g.Derives us' vs' := by
  obtain ⟨vs, vs', rfl, h1, h2⟩ := (derives_iff_yields.mp h).split
  exact ⟨vs, vs', rfl, h1.derives, h2.derives⟩

theorem IsNullable.of_append {us us' : List Symbol} (h : g.IsNullable (us ++ us')) :
    g.IsNullable us ∧ g.IsNullable us' := by
  obtain ⟨vs, vs', hnil, h1, h2⟩ := Derives.split h
  obtain ⟨rfl, rfl⟩ := List.append_eq_nil_iff.mp hnil.symm
  exact ⟨h1, h2⟩

/-! ## Rightmost derivations -/

theorem ExpandsLast.context {us vs : List Symbol} (h : g.ExpandsLast us vs)
    (before : List Symbol) (w : List TerminalId) :
    g.ExpandsLast (before ++ us ++ terminalSymbols w) (before ++ vs ++ terminalSymbols w) := by
  cases h with
  | rule b u h =>
      have h1 := ExpandsLast.rule (before ++ b) (u ++ w) h
      simpa only [terminalSymbols, List.map_append, List.append_assoc, List.cons_append] using h1

theorem DerivesRightmost.context {us vs : List Symbol} (h : g.DerivesRightmost us vs)
    (before : List Symbol) (w : List TerminalId) :
    g.DerivesRightmost (before ++ us ++ terminalSymbols w)
      (before ++ vs ++ terminalSymbols w) := by
  induction h with
  | refl => exact .refl
  | tail _ h1 ih => exact ih.tail (h1.context before w)

/-- The symbols that come last are replaced first. -/
theorem Yields.rightmost {us vs : List Symbol} (h : g.Yields us vs) {v : List TerminalId}
    (hvs : vs = terminalSymbols v) : g.DerivesRightmost us vs := by
  induction h generalizing v with
  | nil => exact .refl
  | @keep s us vs _ ih =>
      obtain ⟨t, w, rfl, -, hw⟩ := List.map_eq_cons_iff.mp hvs.symm
      have hrest := (ih hw.symm).context [s] []
      simpa only [terminalSymbols, List.map_nil, List.append_nil, List.singleton_append]
        using hrest
  | @replace n body us vs ws rule _ _ ihInner ihRest =>
      obtain ⟨v1, v2, rfl, h1, h2⟩ := List.map_eq_append_iff.mp hvs.symm
      have hrest := (ihRest h2.symm).context [.nonterminal n] []
      have hrule := ExpandsLast.rule [] v2 rule
      have hinner := (ihInner h1.symm).context [] v2
      have hws : terminalSymbols v2 = ws := h2
      rw [hws] at hrule hinner
      simp only [terminalSymbols, List.map_nil, List.append_nil, List.nil_append,
        List.singleton_append] at hrest hrule hinner
      exact (hrest.tail hrule).trans hinner

theorem Derives.rightmost {us : List Symbol} {v : List TerminalId}
    (h : g.Derives us (terminalSymbols v)) : g.DerivesRightmost us (terminalSymbols v) :=
  (derives_iff_yields.mp h).rightmost rfl

/-! ## Declared symbols -/

theorem Produces.declared (hg : g.WellFormed) {n : NonterminalId} {body : List Symbol}
    (h : g.Produces n body) : n ∈ g.nonterminals.keys := by
  obtain ⟨r, hr, rfl, -⟩ := h
  exact hg.heads r hr

theorem Produces.allows (hg : g.WellFormed) {n : NonterminalId} {body : List Symbol}
    (h : g.Produces n body) : ∀ s ∈ body, g.Allows s := by
  obtain ⟨r, hr, -, rfl⟩ := h
  exact hg.bodies r hr

theorem DerivesProperly.declared (hg : g.WellFormed) {n : NonterminalId} {vs : List Symbol}
    (h : g.DerivesProperly [.nonterminal n] vs) : n ∈ g.nonterminals.keys := by
  obtain ⟨us, hus, -⟩ := Relation.TransGen.head'_iff.mp h
  exact hus.produces.declared hg

theorem Expands.allows (hg : g.WellFormed) {us vs : List Symbol} (h : g.Expands us vs)
    (hus : ∀ s ∈ us, g.Allows s) : ∀ s ∈ vs, g.Allows s := by
  cases h with
  | rule before after rule =>
      intro s hs
      rcases List.mem_append.mp hs with hs | hs
      · rcases List.mem_append.mp hs with hs | hs
        · exact hus s (List.mem_append_left _ hs)
        · exact rule.allows hg s hs
      · exact hus s (List.mem_append_right _ (List.mem_cons_of_mem _ hs))

theorem Derives.allows (hg : g.WellFormed) {us vs : List Symbol} (h : g.Derives us vs)
    (hus : ∀ s ∈ us, g.Allows s) : ∀ s ∈ vs, g.Allows s := by
  induction h with
  | refl => exact hus
  | tail _ h1 ih => exact h1.allows hg ih

theorem Derives.allows_of_declared (hg : g.WellFormed) {n : NonterminalId}
    (hn : n ∈ g.nonterminals.keys) {vs : List Symbol} (h : g.Derives [.nonterminal n] vs) :
    ∀ s ∈ vs, g.Allows s := by
  apply h.allows hg
  intro s hs
  rw [List.mem_singleton] at hs
  exact hs ▸ hn

/-! ## First terminals -/

/-- The terminal can be the first symbol of what derives from the symbol. -/
inductive Leads (g : Grammar) (t : TerminalId) : Symbol → Prop where
  | here : Leads g t (.terminal t)
  | rule {n : NonterminalId} {before after : List Symbol} {s : Symbol}
      (rule : g.Produces n (before ++ s :: after)) (null : g.IsNullable before)
      (inner : Leads g t s) : Leads g t (.nonterminal n)

theorem Leads.derives {t : TerminalId} {s : Symbol} (h : g.Leads t s) :
    ∃ after, g.Derives [s] (.terminal t :: after) := by
  induction h with
  | here => exact ⟨[], .refl⟩
  | @rule n before after s rule null _ ih =>
      obtain ⟨after', hd⟩ := ih
      refine ⟨after' ++ after, rule.derives.trans ?_⟩
      exact null.append (Derives.append (u := [s]) hd .refl)

theorem Yields.leads {us vs : List Symbol} (h : g.Yields us vs) {t : TerminalId}
    {rest : List Symbol} (hvs : vs = .terminal t :: rest) :
    ∃ before s after, us = before ++ s :: after ∧ g.IsNullable before ∧ g.Leads t s := by
  induction h generalizing rest with
  | nil => cases hvs
  | keep s _ _ =>
      cases hvs
      exact ⟨[], _, _, rfl, .refl, .here⟩
  | @replace n body us vs ws rule inner _ ihInner ihRest =>
      cases vs with
      | nil =>
          -- the nonterminal vanishes, so the terminal comes from what stands after it
          obtain ⟨before, s, after, rfl, hnull, hs⟩ := ihRest hvs
          have hn : g.IsNullable [.nonterminal n] := rule.derives.trans inner.derives
          exact ⟨.nonterminal n :: before, s, after, rfl, hn.append hnull, hs⟩
      | cons v vs =>
          rw [List.cons_append, List.cons.injEq] at hvs
          obtain ⟨before, s, after, rfl, hnull, hs⟩ := ihInner (by rw [hvs.1])
          exact ⟨[], _, us, rfl, .refl, .rule rule hnull hs⟩

theorem leads_of_derives {t : TerminalId} {s : Symbol} {after : List Symbol}
    (h : g.Derives [s] (.terminal t :: after)) : g.Leads t s := by
  obtain ⟨before, s', after', hs, -, hleads⟩ := (derives_iff_yields.mp h).leads rfl
  cases before with
  | nil =>
      cases hs
      exact hleads
  | cons _ before => simp at hs

end Grammar

end ShiftReduce
