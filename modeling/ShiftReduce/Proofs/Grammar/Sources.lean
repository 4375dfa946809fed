import ShiftReduce.Grammar.Source
import ShiftReduce.Proofs.Grammar.Drafts

/-! # Grammars that are read from a source

- `Draft.Leads`: declarations lead from one draft to another; each part of a
  source does no more than that.
- `Grammar.isDefined_ofSource`: so a grammar that is read is a defined one.
- `Grammar.IsBuilt`: a grammar that is defined, or read from a source.
-/

namespace ShiftReduce

namespace Draft

/-- Declarations lead from one draft to the other. -/
def Leads (d d' : Draft) : Prop := ∃ cs, (d.performAll cs).2 = d'

variable {d d' d'' : Draft}

theorem Leads.refl (d : Draft) : d.Leads d := ⟨[], rfl⟩

theorem performAll_append (d : Draft) (cs cs' : List Declaration) :
    (d.performAll (cs ++ cs')).2 = ((d.performAll cs).2.performAll cs').2 := by
  induction cs generalizing d with
  | nil => rfl
  | cons c cs ih => exact ih (d.perform c).2

theorem Leads.trans (h : d.Leads d') (h' : d'.Leads d'') : d.Leads d'' := by
  obtain ⟨cs, rfl⟩ := h
  obtain ⟨cs', rfl⟩ := h'
  exact ⟨cs ++ cs', performAll_append d cs cs'⟩

theorem Leads.of_declare {c : Declaration} {id : Option Nat} (h : d.declare c = .ok (id, d')) :
    d.Leads d' := by
  refine ⟨[c], ?_⟩
  show (d.perform c).2 = d'
  rw [perform, h]

theorem leads_declareTerminal {name : String} {t : TerminalId}
    (h : d.declareTerminal name = .ok (t, d')) : d.Leads d' := by
  have h1 : d.declare (.terminal name) = .ok (some t, d') := by
    rw [declare, h]
    rfl
  exact .of_declare h1

theorem leads_declareNonterminal {name : String} {n : NonterminalId}
    (h : d.declareNonterminal name = .ok (n, d')) : d.Leads d' := by
  have h1 : d.declare (.nonterminal name) = .ok (some n, d') := by
    rw [declare, h]
    rfl
  exact .of_declare h1

theorem leads_addRule {head : NonterminalId} {body : List Symbol} {r : RuleId}
    (h : d.addRule head body = .ok (r, d')) : d.Leads d' := by
  have h1 : d.declare (.rule head body) = .ok (some r, d') := by
    rw [declare, h]
    rfl
  exact .of_declare h1

theorem leads_setStart {n : NonterminalId} (h : d.setStart n = .ok d') : d.Leads d' := by
  have h1 : d.declare (.start n) = .ok (none, d') := by
    rw [declare, h]
    rfl
  exact .of_declare h1

theorem leads_declareNonterminals {names : List String}
    (h : declareNonterminals d names = .ok d') : d.Leads d' := by
  induction names generalizing d with
  | nil =>
      cases h
      exact .refl _
  | cons name names ih =>
      rw [declareNonterminals] at h
      split at h
      · cases h
      · next h1 => exact (leads_declareNonterminal h1).trans (ih h)

theorem leads_declareTerminals {names : List String}
    (h : declareTerminals d names = .ok d') : d.Leads d' := by
  induction names generalizing d with
  | nil =>
      cases h
      exact .refl _
  | cons name names ih =>
      rw [declareTerminals] at h
      split at h
      · cases h
      · next h1 => exact (leads_declareTerminal h1).trans (ih h)

theorem leads_addAlternatives {name : String} {head : NonterminalId}
    {texts : List (List Char)} (h : addAlternatives d name head texts = .ok d') :
    d.Leads d' := by
  induction texts generalizing d with
  | nil =>
      cases h
      exact .refl _
  | cons text texts ih =>
      rw [addAlternatives] at h
      split at h
      · cases h
      · split at h
        · cases h
        · next h1 => exact (leads_addRule h1).trans (ih h)

theorem leads_addRuleLines {lines : List SourceLine} (h : addRuleLines d lines = .ok d') :
    d.Leads d' := by
  induction lines generalizing d with
  | nil =>
      cases h
      exact .refl _
  | cons line lines ih =>
      rw [addRuleLines] at h
      split at h
      · cases h
      · next h1 =>
          rw [addRuleLine] at h1
          split at h1
          · cases h1
          · exact (leads_addAlternatives h1).trans (ih h)

theorem leads_declareSymbols {nonterminals terminals : SourceLine}
    (h : declareSymbols nonterminals terminals = .ok d) : empty.Leads d := by
  rw [declareSymbols] at h
  split at h
  · cases h
  · next h1 =>
      split at h
      · cases h
      · next h2 =>
          cases h
          exact (leads_declareNonterminals h1).trans (leads_declareTerminals h2)

end Draft

namespace Grammar

theorem isDefined_ofSource {source : String} {g : Grammar} (h : ofSource source = .ok g) :
    g.IsDefined := by
  rw [ofSource] at h
  split at h
  · cases h
  · next d hd =>
      have hlead : Draft.empty.Leads d := by
        unfold draftOfLines at hd
        split at hd
        · cases hd
        · cases hd
        · split at hd
          · cases hd
          · next h1 => exact (Draft.leads_declareSymbols h1).trans (Draft.leads_addRuleLines hd)
      -- the declarations of the source make the grammar from the empty draft
      obtain ⟨cs, rfl⟩ := hlead
      split at h
      · cases h
      · next hfin =>
          cases h
          exact .define hfin

/-- The grammar of a text, with what a test finds of it. -/
theorem exists_ofSource (source : String) (p : Grammar → Bool)
    (h : (ofSource source).toOption.any p = true) :
    ∃ g, ofSource source = .ok g ∧ p g = true := by
  cases hg : ofSource source with
  | error e =>
      rw [hg] at h
      cases h
  | ok g =>
      rw [hg] at h
      exact ⟨g, rfl, h⟩

/-- Made by declarations, or read from a source. -/
def IsBuilt (g : Grammar) : Prop := g.IsDefined ∨ ∃ source, ofSource source = .ok g

theorem IsBuilt.isDefined {g : Grammar} (hg : g.IsBuilt) : g.IsDefined := by
  rcases hg with hg | ⟨source, hg⟩
  · exact hg
  · exact isDefined_ofSource hg

theorem IsBuilt.wellFormed {g : Grammar} (hg : g.IsBuilt) : g.WellFormed :=
  hg.isDefined.wellFormed

end Grammar

end ShiftReduce
