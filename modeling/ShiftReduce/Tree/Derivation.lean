import ShiftReduce.Grammar.Derivation
import ShiftReduce.Tree.Basic

/-! # Derivation trees

- `Tree.Derives`: a tree derives from a symbol if each of its nodes, with its
  children, spells a rule; a leaf stands for the terminal with its name.
- `Tree.IsParse`: it derives from the start symbol and its leaves are the input.
-/

namespace ShiftReduce

/-- A terminal other than the end of the input that has this name. -/
def Grammar.Names (g : Grammar) (t : TerminalId) (name : String) : Prop :=
  ∃ x ∈ g.terminals.values, x.id = t ∧ x.name = name ∧ t ≠ endOfInput

mutual

inductive Tree.Derives {τ : Type} [Token τ] (g : Grammar) : Symbol → Tree τ → Prop where
  | leaf {t : TerminalId} {a : τ} (h : g.Names t (Token.name a)) :
      Tree.Derives g (.terminal t) (.leaf a)
  | node {n : NonterminalId} {body : List Symbol} {ts : List (Tree τ)}
      (rule : g.Produces n body) (children : Forest.Derives g body ts) :
      Tree.Derives g (.nonterminal n) (.node (g.nonterminalName n) ts)

inductive Forest.Derives {τ : Type} [Token τ] (g : Grammar) :
    List Symbol → List (Tree τ) → Prop where
  | nil : Forest.Derives g [] []
  | cons {s : Symbol} {ss : List Symbol} {t : Tree τ} {ts : List (Tree τ)}
      (first : Tree.Derives g s t) (rest : Forest.Derives g ss ts) :
      Forest.Derives g (s :: ss) (t :: ts)

end

/-- A derivation tree of the grammar whose leaves are the input. -/
def Tree.IsParse {τ : Type} [Token τ] (g : Grammar) (input : List τ) (t : Tree τ) : Prop :=
  Tree.Derives g (.nonterminal g.start) t ∧ t.leaves = input

end ShiftReduce
