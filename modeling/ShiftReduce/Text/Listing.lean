/-! # Texts made of several texts

- `lines`: one text a line.
- `braced`, `bracketed`: texts in braces or brackets, separated by commas.
- `indented`: a text whose further lines begin with a margin.
-/

namespace ShiftReduce.Text

/-- The texts as lines, each of them ended. -/
def lines (texts : List String) : String := String.join (texts.map (· ++ "\n"))

def braced (texts : List String) : String := "\x7b" ++ ", ".intercalate texts ++ "\x7d"

def bracketed (texts : List String) : String := "[" ++ ", ".intercalate texts ++ "]"

def indented (margin text : String) : String :=
  String.join (text.toList.map fun c => if c = '\n' then "\n" ++ margin else c.toString)

end ShiftReduce.Text
