import ShiftReduce.Text.Blank

/-! # Cutting a text into pieces

- `splitWhere`, `splitOn`: the pieces between separators.
- `splitArrow`: the parts before and after the first arrow.
- `words`: the nonempty pieces between white space.
-/

namespace ShiftReduce.Text

/-- Puts a character in front of the first piece. -/
def consFirst (c : Char) : List (List Char) → List (List Char)
  | [] => [[c]]
  | p :: ps => (c :: p) :: ps

/-- The pieces between the characters with property `p`; there is one more piece
than there are separators, and pieces may be empty. -/
def splitWhere (p : Char → Bool) : List Char → List (List Char)
  | [] => [[]]
  | c :: cs => if p c then [] :: splitWhere p cs else consFirst c (splitWhere p cs)

def splitOn (sep : Char) (cs : List Char) : List (List Char) :=
  splitWhere (· == sep) cs

/-- The parts before and after the first `->`. -/
def splitArrow : List Char → Option (List Char × List Char)
  | [] => none
  | '-' :: '>' :: cs => some ([], cs)
  | c :: cs => (splitArrow cs).map fun (before, after) => (c :: before, after)

def words (cs : List Char) : List (List Char) :=
  (splitWhere isBlank cs).filter (· ≠ [])

end ShiftReduce.Text
