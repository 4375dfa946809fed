import ShiftReduce.Text.Unprintable

/-! # Quoted texts

- `quote`: a text in double quotes, in which quotes, backslashes, line ends and
  characters that cannot be shown are escaped.
-/

namespace ShiftReduce.Text

/-- The digits of a number to base 16, in lower case. -/
def hexText (n : Nat) : String := String.ofList (Nat.toDigits 16 n)

def quotedChar (c : Char) : String :=
  if c = '\x00' then "\\0"
  else if c = '\t' then "\\t"
  else if c = '\r' then "\\r"
  else if c = '\n' then "\\n"
  else if c = '\\' then "\\\\"
  else if c = '\x22' then "\\\""
  else if isUnprintable c then "\\u\x7b" ++ hexText c.toNat ++ "\x7d"
  else c.toString

def quote (s : String) : String := "\"" ++ String.join (s.toList.map quotedChar) ++ "\""

end ShiftReduce.Text
