import Mathlib.Data.List.Chain
import Mathlib.Data.Nat.Digits.Defs
import ShiftReduce.Calculator.Scanner

/-! # Writing tokens out

A number can be written with more digits than it needs, and tokens with white space between
them. Here are all the ways to do so.

- `Spelling`: a token as it is written, with all digits of a number.
- `Spelling.text`, `Spelling.token`: the characters, and the token that they stand for.
- `Spelling.IsOutOfRange`: a whole number that is too large for a token.
- `Spaced`, `spacedText`: spellings, each with the white space before it.
- `KeptApart`: numbers do not touch each other.
-/

namespace ShiftReduce

/-! ## Digits -/

def digitsText (ds : List (Fin 10)) : List Char := ds.map fun d : Fin 10 => d.val.digitChar

/-- The number that digits stand for, the most significant one first. -/
def digitsNumber (ds : List (Fin 10)) : Nat := Nat.ofDigits 10 (ds.reverse.map Fin.val)

/-! ## Tokens -/

inductive Spelling where
  | cos
  | plus
  | minus
  | mult
  | factorial
  | int (first : Fin 10) (others : List (Fin 10))
  | float (first : Fin 10) (others fraction : List (Fin 10))
deriving DecidableEq, Repr

namespace Spelling

def text : Spelling → List Char
  | .cos => ['c', 'o', 's']
  | .plus => ['+']
  | .minus => ['-']
  | .mult => ['*']
  | .factorial => ['!']
  | .int first others => digitsText (first :: others)
  | .float first others fraction =>
      digitsText (first :: others) ++ '.' :: digitsText fraction

/-- The number after the point is divided by a power of ten. -/
def token : Spelling → CalcToken
  | .cos => .cos
  | .plus => .plus
  | .minus => .minus
  | .mult => .mult
  | .factorial => .factorial
  | .int first others => .int (digitsNumber (first :: others))
  | .float first others fraction =>
      .float (Binary64.ofRatio (digitsNumber (first :: others ++ fraction))
        (10 ^ fraction.length))

def IsNumber : Spelling → Prop
  | .int _ _ => True
  | .float _ _ _ => True
  | _ => False

instance : DecidablePred IsNumber
  | .int _ _ | .float _ _ _ => .isTrue trivial
  | .cos | .plus | .minus | .mult | .factorial => .isFalse id

def IsOutOfRange : Spelling → Prop
  | .int first others => 2 ^ 63 - 1 < digitsNumber (first :: others)
  | _ => False

instance : DecidablePred IsOutOfRange
  | .int first others => inferInstanceAs (Decidable (2 ^ 63 - 1 < digitsNumber (first :: others)))
  | .cos | .plus | .minus | .mult | .factorial | .float _ _ _ => .isFalse id

end Spelling

/-! ## White space -/

structure Spaced where
  gap : List Char
  spelling : Spelling
  gap_spacing : AllSpacing gap

def Spaced.text (s : Spaced) : List Char := s.gap ++ s.spelling.text

def spacedText (ss : List Spaced) : List Char := ss.flatMap Spaced.text

/-- There is white space between two numbers, one right after the other. -/
def KeptApart (ss : List Spaced) : Prop :=
  ss.IsChain fun s s' => s.spelling.IsNumber → s'.spelling.IsNumber → s'.gap ≠ []

instance (ss : List Spaced) : Decidable (KeptApart ss) :=
  inferInstanceAs (Decidable (List.IsChain _ ss))

end ShiftReduce
