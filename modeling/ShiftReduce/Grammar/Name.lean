import ShiftReduce.Text.Blank

/-! # Names of grammar symbols

- `epsilon`, `epsilonWord`: the two spellings of the empty string.
- `isValidName`: the names that a symbol may have. They can be written in a
  grammar source, where blanks, commas and bars separate names.
-/

namespace ShiftReduce

/-- How the empty string is written. -/
def epsilon : String := "ε"

/-- The other spelling of the empty string that a source may use. -/
def epsilonWord : String := "epsilon"

/-- The name of the end of the input. -/
def endOfInputName : String := "$"

def reservedNames : List String := [endOfInputName, epsilon, epsilonWord, "->"]

def isValidName (name : String) : Bool :=
  name != "" && !reservedNames.contains name &&
  !name.toList.any fun c => Text.isBlank c || c == ',' || c == '|'

end ShiftReduce
