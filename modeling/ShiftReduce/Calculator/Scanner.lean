import ShiftReduce.Calculator.Token
import ShiftReduce.Text.Quoted

/-! # Scanning calculator expressions

- `Lexeme`: a piece of the text with its kind.
- `nextLexeme`: the longest lexeme at the beginning of a text; a character that
  starts none is a piece of its own.
- `CalcToken.scan`: the tokens of a text, or its first piece that is none.
-/

namespace ShiftReduce

inductive ScanFault where
  | invalidInput
  | integerOutOfRange
deriving DecidableEq, Repr

/-- A piece of the text that is no token, and how many bytes are before it. -/
structure ScanError where
  fault : ScanFault
  piece : List Char
  offset : Nat
deriving DecidableEq, Repr

def ScanError.message (e : ScanError) : String :=
  let piece := String.ofList e.piece
  match e.fault with
  | .invalidInput => s!"invalid input {Text.quote piece} at offset {e.offset}"
  | .integerOutOfRange => s!"integer {piece} at offset {e.offset} is out of range"

/-! ## Lexemes -/

inductive LexemeKind where
  | symbol (t : CalcToken)
  | int
  | float
  | invalid
deriving DecidableEq, Repr

structure Lexeme where
  kind : LexemeKind
  text : List Char
deriving DecidableEq, Repr

def digits (cs : List Char) : List Char := cs.takeWhile Char.isDigit

def afterDigits (cs : List Char) : List Char := cs.dropWhile Char.isDigit

/-- The longest lexeme that starts with the digit `c`, and the rest. -/
def numberLexeme (c : Char) (cs : List Char) : Lexeme × List Char :=
  let whole := c :: digits cs
  match afterDigits cs with
  | '.' :: rest => (⟨.float, whole ++ '.' :: digits rest⟩, afterDigits rest)
  | rest => (⟨.int, whole⟩, rest)

/-- The longest lexeme at the beginning of `c :: cs`, and the rest. -/
def nextLexeme (c : Char) (cs : List Char) : Lexeme × List Char :=
  if c.isDigit then numberLexeme c cs
  else
    match c, cs with
    | 'c', 'o' :: 's' :: rest => (⟨.symbol .cos, ['c', 'o', 's']⟩, rest)
    | '+', rest => (⟨.symbol .plus, [c]⟩, rest)
    | '-', rest => (⟨.symbol .minus, [c]⟩, rest)
    | '*', rest => (⟨.symbol .mult, [c]⟩, rest)
    | '!', rest => (⟨.symbol .factorial, [c]⟩, rest)
    | c, rest => (⟨.invalid, [c]⟩, rest)

theorem length_afterDigits (cs : List Char) : (afterDigits cs).length ≤ cs.length :=
  (List.dropWhile_sublist _).length_le

theorem length_numberLexeme (c : Char) (cs : List Char) :
    (numberLexeme c cs).2.length ≤ cs.length := by
  have h := length_afterDigits cs
  unfold numberLexeme
  split
  · next rest hrest =>
      have h1 := length_afterDigits rest
      rw [hrest, List.length_cons] at h
      simp only
      omega
  · exact h

theorem length_nextLexeme (c : Char) (cs : List Char) :
    (nextLexeme c cs).2.length ≤ cs.length := by
  unfold nextLexeme
  split
  · exact length_numberLexeme c cs
  · split <;> simp only [List.length_cons] <;> omega

/-! ## Values -/

/-- The number that digits spell. -/
def digitsValue (cs : List Char) : Nat :=
  cs.foldl (fun n c => 10 * n + (c.toNat - '0'.toNat)) 0

/-- Whole numbers are below this one. -/
def intLimit : Nat := Nat.pow 2 63

/-- The number nearest to the decimal that a text with one point spells. -/
def floatValue (text : List Char) : Binary64 :=
  let fraction := (text.dropWhile (· ≠ '.')).drop 1
  Binary64.ofRatio (digitsValue (text.filter (· ≠ '.'))) (Nat.pow 10 fraction.length)

def Lexeme.token (l : Lexeme) : Except ScanFault CalcToken :=
  match l.kind with
  | .symbol t => .ok t
  | .int =>
      let n := digitsValue l.text
      if n < intLimit then .ok (.int n) else .error .integerOutOfRange
  | .float => .ok (.float (floatValue l.text))
  | .invalid => .error .invalidInput

/-! ## Texts -/

/-- The characters that only separate lexemes. -/
def isSpacing (c : Char) : Bool :=
  c = ' ' || c = '\t' || c = '\r' || c = '\n' || c = '\x0C'

def AllSpacing (cs : List Char) : Prop := ∀ c ∈ cs, isSpacing c = true

instance (cs : List Char) : Decidable (AllSpacing cs) :=
  decidable_of_iff (cs.all isSpacing = true) List.all_eq_true

/-- The number of bytes of a text. -/
def byteLength (cs : List Char) : Nat := cs.foldr (fun c n => c.utf8Size + n) 0

namespace CalcToken

/-- The tokens of a text before which there are `offset` bytes. -/
def scanFrom (offset : Nat) : List Char → Except ScanError (List CalcToken)
  | [] => .ok []
  | c :: cs =>
      if isSpacing c then scanFrom (offset + c.utf8Size) cs
      else
        let next := nextLexeme c cs
        match next.1.token with
        | .error fault => .error ⟨fault, next.1.text, offset⟩
        | .ok t => (scanFrom (offset + byteLength next.1.text) next.2).map (t :: ·)
termination_by cs => cs.length
decreasing_by
  · exact Nat.lt_succ_self _
  · exact Nat.lt_succ_of_le (length_nextLexeme c cs)

def scan (text : String) : Except ScanError (List CalcToken) := scanFrom 0 text.toList

end CalcToken

end ShiftReduce
