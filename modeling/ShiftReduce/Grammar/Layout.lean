import Mathlib.Logic.Relation
import ShiftReduce.Text.Lines

/-! # The layout of a grammar source

- `physicalLines`: the lines of a source as they stand.
- `SameLines`, `IsCut`: sources that begin with the same lines, and a source that ends there.
- `DeclarationEdit`, `RuleEdit`: white space that is put into a line, between its parts.
- `LineEdit`, `LayoutEdit`: what may be done to the lines, and to a source, without a change of
  what it says.
- `SameButLayout`: any number of edits, each of them made or undone.
-/

namespace ShiftReduce

open Text

def physicalLines (source : String) : List (List Char) := splitLines source.toList

/-! ## First lines -/

/-- The first `k` lines of the sources are the same. -/
def SameLines (k : Nat) (source source' : String) : Prop :=
  (physicalLines source').take k = (physicalLines source).take k

/-- The second source is the first one up to line `k`. -/
def IsCut (k : Nat) (source source' : String) : Prop :=
  physicalLines source' = (physicalLines source).take k

/-! ## Edits of one line -/

/-- Neither blank nor a comment. -/
def IsSignificant (line : List Char) : Prop := trim line ≠ [] ∧ (trim line).head? ≠ some '#'

instance (line : List Char) : Decidable (IsSignificant line) := inferInstanceAs (Decidable (_ ∧ _))

def significant (lines : List (List Char)) : List (List Char) := lines.filter (IsSignificant ·)

/-- White space around a comma. -/
inductive DeclarationEdit : List Char → List Char → Prop where
  | comma {ws ws' : List Char} (a b : List Char) (left : AllBlank ws) (right : AllBlank ws') :
      DeclarationEdit (a ++ ',' :: b) (a ++ ws ++ ',' :: (ws' ++ b))

inductive RuleEdit : List Char → List Char → Prop where
  /-- White space around the first arrow. -/
  | arrow {a ws ws' : List Char} (b : List Char) (first : ¬ ['-', '>'] <:+: a)
      (left : AllBlank ws) (right : AllBlank ws') :
      RuleEdit (a ++ '-' :: '>' :: b) (a ++ ws ++ '-' :: '>' :: (ws' ++ b))
  /-- White space around a bar. -/
  | bar {ws ws' : List Char} (a b : List Char) (left : AllBlank ws) (right : AllBlank ws') :
      RuleEdit (a ++ '|' :: b) (a ++ ws ++ '|' :: (ws' ++ b))
  /-- Other white space between two symbols of a body. -/
  | gap {a ws ws' : List Char} (b c : List Char) (first : ¬ ['-', '>'] <:+: a)
      (old : AllBlank ws) (old_ne : ws ≠ []) (new : AllBlank ws') (new_ne : ws' ≠ []) :
      RuleEdit (a ++ '-' :: '>' :: (b ++ ws ++ c)) (a ++ '-' :: '>' :: (b ++ ws' ++ c))

/-! ## Edits of a source -/

inductive LineEdit : List (List Char) → List (List Char) → Prop where
  /-- A blank line or a comment anywhere. -/
  | insert {line : List Char} (before after : List (List Char)) (h : ¬ IsSignificant line) :
      LineEdit (before ++ after) (before ++ line :: after)
  /-- White space at the ends of a line. -/
  | pad {ws ws' : List Char} (before after : List (List Char)) (line : List Char)
      (left : AllBlank ws) (right : AllBlank ws') :
      LineEdit (before ++ line :: after) (before ++ (ws ++ line ++ ws') :: after)
  /-- One of the first two lines that count. -/
  | declaration {line line' : List Char} {before : List (List Char)} (after : List (List Char))
      (line_significant : IsSignificant line) (place : (significant before).length < 2)
      (edit : DeclarationEdit line line') :
      LineEdit (before ++ line :: after) (before ++ line' :: after)
  /-- One of the lines behind them. -/
  | rule {line line' : List Char} {before : List (List Char)} (after : List (List Char))
      (line_significant : IsSignificant line) (place : 2 ≤ (significant before).length)
      (edit : RuleEdit line line') :
      LineEdit (before ++ line :: after) (before ++ line' :: after)
  /-- A line for each alternative in the place of one line with all of them. -/
  | split {a : List Char} {alternatives before : List (List Char)} (after : List (List Char))
      (first : ¬ ['-', '>'] <:+: a) (nonempty : alternatives ≠ [])
      (line_significant : IsSignificant (a ++ '-' :: '>' :: ['|'].intercalate alternatives))
      (place : 2 ≤ (significant before).length) :
      LineEdit (before ++ (a ++ '-' :: '>' :: ['|'].intercalate alternatives) :: after)
        (before ++ alternatives.map (fun text => a ++ '-' :: '>' :: text) ++ after)

inductive LayoutEdit : String → String → Prop where
  /-- The end of a line. -/
  | ending (a b : List Char) :
      LayoutEdit (String.ofList (a ++ '\n' :: b)) (String.ofList (a ++ '\r' :: '\n' :: b))
  | lines {source source' : String}
      (edit : LineEdit (physicalLines source) (physicalLines source')) :
      LayoutEdit source source'

def SameButLayout : String → String → Prop := Relation.EqvGen LayoutEdit

end ShiftReduce
