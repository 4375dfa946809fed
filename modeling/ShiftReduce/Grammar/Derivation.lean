import Mathlib.Logic.Relation
import ShiftReduce.Grammar.Basic

/-! # Derivations

What a grammar means, apart from any way to compute with it.

- `Grammar.Produces`: a nonterminal has a rule with this body.
- `Grammar.Expands`, `Grammar.Derives`, `Grammar.DerivesProperly`: one step, any
  number of steps, at least one step.
- `Grammar.ExpandsLast`, `Grammar.DerivesRightmost`: the same when each step
  replaces the last nonterminal.
- `Grammar.IsNullable`, `Grammar.IsProductive`, `Grammar.IsAcyclic`,
  `Grammar.IsLeftmost`, `Grammar.IsHiddenLeftRecursive`, `Grammar.IsSentence`.
-/

namespace ShiftReduce

/-- The symbols of a string of terminals. -/
def terminalSymbols (w : List TerminalId) : List Symbol := w.map .terminal

namespace Grammar

variable {g : Grammar}

def Produces (g : Grammar) (n : NonterminalId) (body : List Symbol) : Prop :=
  ∃ r ∈ g.rules.values, r.head = n ∧ r.body = body

/-- One nonterminal is replaced by the body of one of its rules. -/
inductive Expands (g : Grammar) : List Symbol → List Symbol → Prop where
  | rule (before after : List Symbol) {n : NonterminalId} {body : List Symbol}
      (h : g.Produces n body) :
      Expands g (before ++ .nonterminal n :: after) (before ++ body ++ after)

def Derives (g : Grammar) : List Symbol → List Symbol → Prop :=
  Relation.ReflTransGen g.Expands

def DerivesProperly (g : Grammar) : List Symbol → List Symbol → Prop :=
  Relation.TransGen g.Expands

/-- The last nonterminal is replaced by the body of one of its rules. -/
inductive ExpandsLast (g : Grammar) : List Symbol → List Symbol → Prop where
  | rule (before : List Symbol) (w : List TerminalId) {n : NonterminalId}
      {body : List Symbol} (h : g.Produces n body) :
      ExpandsLast g (before ++ .nonterminal n :: terminalSymbols w)
        (before ++ body ++ terminalSymbols w)

def DerivesRightmost (g : Grammar) : List Symbol → List Symbol → Prop :=
  Relation.ReflTransGen g.ExpandsLast

def IsNullable (g : Grammar) (ss : List Symbol) : Prop := g.Derives ss []

/-- Some string of terminals can be derived from the nonterminal. -/
def IsProductive (g : Grammar) (n : NonterminalId) : Prop :=
  ∃ w, g.Derives [.nonterminal n] (terminalSymbols w)

/-- No nonterminal derives itself. -/
def IsAcyclic (g : Grammar) : Prop :=
  ∀ n, ¬ g.DerivesProperly [.nonterminal n] [.nonterminal n]

/-- Only terminals stand before the nonterminal in some string that derives from the start
symbol. -/
def IsLeftmost (g : Grammar) (n : NonterminalId) : Prop :=
  ∃ w after, g.Derives [.nonterminal g.start] (terminalSymbols w ++ .nonterminal n :: after)

/-- The nonterminal derives itself behind a string that is not empty but can vanish. -/
def IsHiddenLeftRecursive (g : Grammar) (n : NonterminalId) : Prop :=
  ∃ before after, before ≠ [] ∧ g.IsNullable before ∧
    g.DerivesProperly [.nonterminal n] (before ++ .nonterminal n :: after)

def IsSentence (g : Grammar) (w : List TerminalId) : Prop :=
  g.Derives [.nonterminal g.start] (terminalSymbols w)

/-! ## Rules -/

theorem produces_of_mem {r : RuleId} {rule : Rule} (h : (r, rule) ∈ g.rules.entries) :
    g.Produces rule.head rule.body :=
  ⟨rule, OrderedMap.mem_values.mpr ⟨r, h⟩, rfl, rfl⟩

theorem produces_of_rule? {r : RuleId} {rule : Rule} (h : g.rule? r = some rule) :
    g.Produces rule.head rule.body :=
  produces_of_mem (OrderedMap.mem_entries_of_find? h)

/-! ## Derivations in context -/

theorem ExpandsLast.expands {u v : List Symbol} (h : g.ExpandsLast u v) :
    g.Expands u v := by
  cases h with
  | rule before w h => exact .rule before (terminalSymbols w) h

theorem Expands.context {u v : List Symbol} (h : g.Expands u v)
    (before after : List Symbol) :
    g.Expands (before ++ u ++ after) (before ++ v ++ after) := by
  cases h with
  | rule b a h =>
      have h1 := Expands.rule (before ++ b) (a ++ after) h
      simpa only [List.append_assoc, List.cons_append] using h1

theorem Derives.context {u v : List Symbol} (h : g.Derives u v)
    (before after : List Symbol) :
    g.Derives (before ++ u ++ after) (before ++ v ++ after) := by
  induction h with
  | refl => exact .refl
  | tail _ h1 ih => exact ih.tail (h1.context before after)

theorem Derives.append {u v u' v' : List Symbol} (h : g.Derives u v) (h' : g.Derives u' v') :
    g.Derives (u ++ u') (v ++ v') := by
  have h1 := h.context [] u'
  have h2 := h'.context v []
  simp only [List.nil_append, List.append_nil] at h1 h2
  exact h1.trans h2

theorem Produces.expands {n : NonterminalId} {body : List Symbol} (h : g.Produces n body) :
    g.Expands [.nonterminal n] body := by
  have h1 := Expands.rule [] [] h
  rwa [List.nil_append, List.nil_append, List.append_nil] at h1

theorem Produces.derives {n : NonterminalId} {body : List Symbol} (h : g.Produces n body) :
    g.Derives [.nonterminal n] body :=
  .single h.expands

theorem DerivesRightmost.derives {u v : List Symbol} (h : g.DerivesRightmost u v) :
    g.Derives u v := by
  induction h with
  | refl => exact .refl
  | tail _ h1 ih => exact ih.tail h1.expands

end Grammar

end ShiftReduce
