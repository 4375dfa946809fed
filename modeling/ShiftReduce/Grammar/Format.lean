import Mathlib.Data.List.Forall2
import ShiftReduce.Grammar.Source

/-! # The format of a grammar source

What a source may say, told without its reader.

- `Content`: the names that a source declares, and its alternatives word by word.
- `Content.IsRead`: the content of a source.
- `Content.IsValid`: what the names and the alternatives have to be.
- `Content.rules`, `Grammar.Holds`: the grammar that the content describes.
- `Content.HasRoom`: there are enough numbers for it.
-/

namespace ShiftReduce

structure Content where
  nonterminals : List String
  terminals : List String
  /-- The alternatives in order, each with its head. -/
  alternatives : List (String × List String)
deriving DecidableEq, Repr

/-! ## What a source says -/

/-- The trimmed lines that are neither empty nor comments. -/
def contentLines (source : String) : List (List Char) :=
  ((Text.splitOn '\n' source.toList).map Text.trim).filter
    fun line => line ≠ [] ∧ line.head? ≠ some '#'

def wordsOf (text : List Char) : List String := (Text.words text).map String.ofList

/-- The alternatives between the bars, each with the head. -/
def alternativesOf (head : String) (text : List Char) : List (String × List String) :=
  (Text.splitOn '|' text).map fun alternative => (head, wordsOf alternative)

/-- A line of rules is cut at its first arrow. -/
inductive RuleLine : List Char → List (String × List String) → Prop where
  | cut {before after : List Char} (first : ¬ ['-', '>'] <:+: before) :
      RuleLine (before ++ '-' :: '>' :: after)
        (alternativesOf (String.ofList (Text.trim before)) after)

namespace Content

inductive IsRead (source : String) : Content → Prop where
  | intro {first second : List Char} {rest : List (List Char)}
      {alternatives : List (List (String × List String))}
      (lines : contentLines source = first :: second :: rest)
      (rules : List.Forall₂ RuleLine rest alternatives) :
      IsRead source ⟨declaredNames first, declaredNames second, alternatives.flatten⟩

/-! ## What a grammar can be made of -/

/-- Either declared symbols or spellings of the empty string, at least one. -/
def IsAlternative (c : Content) (words : List String) : Prop :=
  words ≠ [] ∧
    ((∀ w ∈ words, w ∈ c.nonterminals ++ c.terminals) ∨ ∀ w ∈ words, isEpsilon w = true)

instance (c : Content) (words : List String) : Decidable (c.IsAlternative words) :=
  inferInstanceAs (Decidable (_ ∧ _))

structure IsValid (c : Content) : Prop where
  names : ∀ name ∈ c.nonterminals ++ c.terminals, isValidName name = true
  distinct : (c.nonterminals ++ c.terminals).Nodup
  heads : ∀ p ∈ c.alternatives, p.1 ∈ c.nonterminals
  bodies : ∀ p ∈ c.alternatives, c.IsAlternative p.2

/-- The symbols that an alternative spells, none if it spells the empty string. -/
def spelled (words : List String) : List String := words.filter (!isEpsilon ·)

/-- Each rule where it occurs first. -/
def rules (c : Content) : List (String × List String) :=
  (c.alternatives.map fun p => (p.1, spelled p.2)).eraseDups

/-- One number of the terminals is taken by the end of the input. -/
structure HasRoom (c : Content) : Prop where
  nonterminals : c.nonterminals.length ≤ idLimit
  terminals : c.terminals.length < idLimit
  rules : c.rules.length ≤ idLimit

end Content

/-- The grammar is the one that the content describes. -/
structure Grammar.Holds (g : Grammar) (c : Content) : Prop where
  nonterminals : g.nonterminals.values.map (·.name) = c.nonterminals
  terminals : g.terminals.values.map (·.name) = endOfInputName :: c.terminals
  start : c.nonterminals.head? = some (g.nonterminalName g.start)
  rules : g.namedRules = c.rules

end ShiftReduce
