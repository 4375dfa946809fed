import ShiftReduce.Text.Pieces

/-! # The lines of a text

- `splitLines`: the lines, without what ends them. A line is ended by `\n` or by `\r\n`; the last
  one may have no end.
-/

namespace ShiftReduce.Text

/-- A text without the `\r` at its end. -/
def dropReturn (cs : List Char) : List Char :=
  if cs.getLast? = some '\r' then cs.dropLast else cs

def splitLines (cs : List Char) : List (List Char) :=
  let pieces := splitOn '\n' cs
  -- each piece but the last one has been ended
  pieces.dropLast.map dropReturn ++ pieces.getLast?.toList.filter (· ≠ [])

end ShiftReduce.Text
