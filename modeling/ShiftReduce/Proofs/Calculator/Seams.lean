import Mathlib.Data.String.Basic
import ShiftReduce.Calculator.Scanner

/-! # Texts one after the other

Where the second of two texts begins with a character that goes on no lexeme, they are scanned
one after the other.

- `EndsLexemes`: a text that goes on no lexeme before it.
- `text_nextLexeme`: a lexeme and the rest are the text.
- `nextLexeme_append`: the longest lexeme does not reach into such a text.
- `CalcToken.scanFrom_lexeme`: what one round of scanning makes of a text.
- `CalcToken.scanFrom_append`: so both texts are scanned by themselves.
- `CalcToken.scanFrom_add`: bytes before a text move its error.
- `CalcToken.scan_append`, `scan_append_spacing`: texts with white space between them.
-/

namespace ShiftReduce

/-! ## Bytes -/

@[simp]
theorem byteLength_cons (c : Char) (cs : List Char) :
    byteLength (c :: cs) = c.utf8Size + byteLength cs := rfl

@[simp]
theorem byteLength_append (cs ds : List Char) :
    byteLength (cs ++ ds) = byteLength cs + byteLength ds := by
  induction cs with
  | nil => exact (Nat.zero_add _).symm
  | cons c cs ih => rw [List.cons_append, byteLength_cons, byteLength_cons, ih, Nat.add_assoc]

theorem byteLength_toList (s : String) : byteLength s.toList = s.utf8ByteSize := by
  rw [← String.utf8Len_toList]
  induction s.toList with
  | nil => rfl
  | cons c cs ih => rw [byteLength_cons, String.utf8Len_cons, ih, Nat.add_comm]

/-! ## Lexemes before a text -/

theorem nextLexeme_of_isDigit {c : Char} (h : c.isDigit = true) (cs : List Char) :
    nextLexeme c cs = numberLexeme c cs := by
  rw [nextLexeme.eq_def, if_pos h]

/-- The character is no part of a lexeme but the first one. -/
def endsLexeme (c : Char) : Bool := !c.isDigit && c ≠ '.' && c ≠ 'o' && c ≠ 's'

/-- The text goes on no lexeme that stands before it. -/
def EndsLexemes (rest : List Char) : Prop := ∀ c ∈ rest.head?, endsLexeme c = true

theorem EndsLexemes.ne {rest : List Char} {c : Char} {cs : List Char}
    (h : EndsLexemes rest) (hrest : rest = c :: cs) :
    c.isDigit = false ∧ c ≠ '.' ∧ c ≠ 'o' ∧ c ≠ 's' := by
  have hc := h c (by rw [hrest]; rfl)
  simpa [endsLexeme, and_assoc] using hc

theorem endsLexemes_nil : EndsLexemes [] := fun _ hc => nomatch hc

theorem endsLexemes_cons {c : Char} (h : endsLexeme c = true) (cs : List Char) :
    EndsLexemes (c :: cs) := by
  intro d hd
  cases hd
  exact h

theorem endsLexeme_of_isSpacing {c : Char} (h : isSpacing c = true) : endsLexeme c = true := by
  simp only [isSpacing, Bool.or_eq_true, decide_eq_true_eq] at h
  rcases h with (((rfl | rfl) | rfl) | rfl) | rfl <;> rfl

/-- White space goes on no lexeme; without any it is for the next text to tell. -/
theorem endsLexemes_append {w cs : List Char} (hw : AllSpacing w)
    (h : w = [] → EndsLexemes cs) : EndsLexemes (w ++ cs) := by
  cases w with
  | nil => exact h rfl
  | cons c w => exact endsLexemes_cons (endsLexeme_of_isSpacing (hw c List.mem_cons_self)) _

section

variable {rest : List Char} (h : EndsLexemes rest)

include h

theorem digits_append (cs : List Char) : digits (cs ++ rest) = digits cs := by
  induction cs with
  | nil =>
      cases rest with
      | nil => rfl
      | cons c rest => exact List.takeWhile_cons_of_neg (by simp [(h.ne rfl).1])
  | cons c cs ih =>
      rw [List.cons_append, digits, digits, List.takeWhile_cons, List.takeWhile_cons]
      split
      · exact congrArg (c :: ·) ih
      · rfl

theorem afterDigits_append (cs : List Char) :
    afterDigits (cs ++ rest) = afterDigits cs ++ rest := by
  induction cs with
  | nil =>
      cases rest with
      | nil => rfl
      | cons c rest => exact List.dropWhile_cons_of_neg (by simp [(h.ne rfl).1])
  | cons c cs ih =>
      rw [List.cons_append, afterDigits, afterDigits, List.dropWhile_cons, List.dropWhile_cons]
      split
      · exact ih
      · rfl

theorem numberLexeme_append (c : Char) (cs : List Char) :
    numberLexeme c (cs ++ rest) = ((numberLexeme c cs).1, (numberLexeme c cs).2 ++ rest) := by
  unfold numberLexeme
  rw [digits_append h, afterDigits_append h]
  cases hafter : afterDigits cs with
  | nil =>
      cases rest with
      | nil => rfl
      | cons d rest =>
          have hpoint := (h.ne rfl).2.1
          simp [hpoint]
  | cons d ds =>
      by_cases hpoint : d = '.'
      · subst hpoint
        simp only [List.cons_append, digits_append h, afterDigits_append h]
      · simp [hpoint]

theorem nextLexeme_append (c : Char) (cs : List Char) :
    nextLexeme c (cs ++ rest) = ((nextLexeme c cs).1, (nextLexeme c cs).2 ++ rest) := by
  fun_cases nextLexeme c cs with
  | case1 c cs hdigit =>
      rw [nextLexeme_of_isDigit hdigit]
      exact numberLexeme_append h c cs
  | case2 => rfl
  | case3 => rfl
  | case4 => rfl
  | case5 => rfl
  | case6 => rfl
  | case7 c cs hcos hplus hminus hmult hfactorial hdigit =>
      rw [nextLexeme, if_neg hdigit]
      · exact hplus
      · exact hminus
      · exact hmult
      · exact hfactorial
      · intro others hc happend
        -- the text would have to begin within `os`
        match cs, rest, h with
        | [], d :: rest, h =>
            cases happend
            exact (h.ne rfl).2.2.1 rfl
        | [d], e :: rest, h =>
            cases happend
            exact (h.ne rfl).2.2.2 rfl
        | d :: e :: cs, rest, _ =>
            cases happend
            exact hcos cs hc rfl

end

/-- Nothing is lost between a lexeme and the rest. -/
theorem text_numberLexeme (c : Char) (cs : List Char) :
    (numberLexeme c cs).1.text ++ (numberLexeme c cs).2 = c :: cs := by
  have hdigits (ds : List Char) : digits ds ++ afterDigits ds = ds :=
    List.takeWhile_append_dropWhile
  unfold numberLexeme
  split
  · next rest hrest =>
      rw [List.append_assoc, List.cons_append, List.cons_append, hdigits, ← hrest, hdigits]
  · rw [List.cons_append, hdigits]

theorem text_nextLexeme (c : Char) (cs : List Char) :
    (nextLexeme c cs).1.text ++ (nextLexeme c cs).2 = c :: cs := by
  fun_cases nextLexeme c cs with
  | case1 c cs => exact text_numberLexeme c cs
  | _ => rfl

namespace CalcToken

/-! ## Scanning -/

theorem scanFrom_spacing_cons {c : Char} (hc : isSpacing c = true) (offset : Nat)
    (cs : List Char) : scanFrom offset (c :: cs) = scanFrom (offset + c.utf8Size) cs := by
  rw [scanFrom, if_pos hc]

/-- One round makes a token of the next lexeme, or the error that it is none. -/
theorem scanFrom_lexeme {c : Char} (hc : ¬ isSpacing c = true) (offset : Nat) (cs : List Char) :
    scanFrom offset (c :: cs) =
      ((nextLexeme c cs).1.token.mapError (⟨·, (nextLexeme c cs).1.text, offset⟩)).bind fun t =>
        (scanFrom (offset + byteLength (nextLexeme c cs).1.text) (nextLexeme c cs).2).map
          (t :: ·) := by
  rw [scanFrom, if_neg hc]
  dsimp only
  cases (nextLexeme c cs).1.token <;> rfl

/-- Both texts are scanned, as far as the first one has tokens. -/
theorem scanFrom_append {rest : List Char} (h : EndsLexemes rest) (offset : Nat) (cs : List Char) :
    scanFrom offset (cs ++ rest) = (scanFrom offset cs).bind fun ts =>
      (scanFrom (offset + byteLength cs) rest).map (ts ++ ·) := by
  fun_induction scanFrom offset cs with
  | case1 offset =>
      change scanFrom offset rest = (scanFrom offset rest).map _
      cases scanFrom offset rest <;> rfl
  | case2 offset c cs hc ih =>
      rw [List.cons_append, scanFrom_spacing_cons hc, ih, byteLength_cons, Nat.add_assoc]
  | case3 offset c cs hc next fault hfault =>
      rw [List.cons_append, scanFrom_lexeme hc, nextLexeme_append h, hfault]
      rfl
  | case4 offset c cs hc next t ht ih =>
      have hbytes : offset + byteLength next.1.text + byteLength next.2 =
          offset + byteLength (c :: cs) := by
        rw [← text_nextLexeme c cs, byteLength_append, Nat.add_assoc]
      rw [List.cons_append, scanFrom_lexeme hc, nextLexeme_append h, ht]
      rw [hbytes] at ih
      change (scanFrom (offset + byteLength next.1.text) (next.2 ++ rest)).map (t :: ·) = _
      rw [ih]
      cases scanFrom (offset + byteLength next.1.text) next.2 with
      | error e => rfl
      | ok ts => cases scanFrom (offset + byteLength (c :: cs)) rest <;> rfl

/-- White space is only counted. -/
theorem scanFrom_spacing {w : List Char} (hw : AllSpacing w) (offset : Nat)
    (cs : List Char) : scanFrom offset (w ++ cs) = scanFrom (offset + byteLength w) cs := by
  induction w generalizing offset with
  | nil => rfl
  | cons c w ih =>
      obtain ⟨hc, hw⟩ := List.forall_mem_cons.mp hw
      rw [List.cons_append, scanFrom_spacing_cons hc, ih hw, byteLength_cons, Nat.add_assoc]

/-- Bytes before a text move its error. -/
theorem scanFrom_add (m offset : Nat) (cs : List Char) :
    scanFrom (m + offset) cs =
      (scanFrom offset cs).mapError fun e => { e with offset := m + e.offset } := by
  fun_induction scanFrom offset cs with
  | case1 offset => rw [scanFrom]; rfl
  | case2 offset c cs hc ih => rw [scanFrom_spacing_cons hc, Nat.add_assoc, ih]
  | case3 offset c cs hc next fault hfault =>
      rw [scanFrom_lexeme hc, hfault]
      rfl
  | case4 offset c cs hc next t ht ih =>
      rw [scanFrom_lexeme hc, ht, Nat.add_assoc]
      change (scanFrom (m + (offset + byteLength next.1.text)) next.2).map (t :: ·) = _
      rw [ih]
      cases scanFrom (offset + byteLength next.1.text) next.2 <;> rfl

/-- Texts with white space between them are scanned one after the other. -/
theorem scan_append (a b : String) {w : String} (hw : w ≠ "")
    (hspacing : AllSpacing w.toList) :
    scan (a ++ w ++ b) = (scan a).bind fun ts =>
      ((scan b).mapError fun e => { e with offset := (a ++ w).utf8ByteSize + e.offset }).map
        (ts ++ ·) := by
  have hends : EndsLexemes (w.toList ++ b.toList) :=
    endsLexemes_append hspacing fun hnil => absurd (String.toList_eq_nil_iff.mp hnil) hw
  have hoffset : 0 + byteLength a.toList + byteLength w.toList = (a ++ w).utf8ByteSize + 0 := by
    rw [byteLength_toList, byteLength_toList, String.utf8ByteSize_append, Nat.zero_add,
      Nat.add_zero]
  rw [scan, scan, scan, String.toList_append, String.toList_append, List.append_assoc,
    scanFrom_append hends, scanFrom_spacing hspacing, hoffset, scanFrom_add]

end CalcToken

/-! ## White space between texts -/

/-- With white space between two texts the tokens of both are found, one after the other. If the
first text has an error, this is the error; if only the second one has, its offset grows by the
bytes before it. -/
theorem scan_append_spacing (a b : String) {w : String} (hw : w ≠ "")
    (hspacing : AllSpacing w.toList) :
    (∀ e, CalcToken.scan a = .error e → CalcToken.scan (a ++ w ++ b) = .error e) ∧
    (∀ ta tb, CalcToken.scan a = .ok ta → CalcToken.scan b = .ok tb →
      CalcToken.scan (a ++ w ++ b) = .ok (ta ++ tb)) ∧
    ∀ ta e, CalcToken.scan a = .ok ta → CalcToken.scan b = .error e →
      CalcToken.scan (a ++ w ++ b) =
        .error { e with offset := (a ++ w).utf8ByteSize + e.offset } := by
  rw [CalcToken.scan_append a b hw hspacing]
  refine ⟨?_, ?_, ?_⟩
  · intro e ha
    rw [ha]
    rfl
  · intro ta tb ha hb
    rw [ha, hb]
    rfl
  · intro ta e ha hb
    rw [ha, hb]
    rfl

/-- A number that is too large is told with its place in the whole text. -/
theorem scan_append_spacing_overflow :
    AllSpacing "\t\n".toList ∧
    CalcToken.scan "cos 2 *" = .ok [.cos, .int 2, .mult] ∧
    CalcToken.scan "-9223372036854775808!" =
      .error ⟨.integerOutOfRange, "9223372036854775808".toList, 1⟩ ∧
    CalcToken.scan "cos 2 *\t\n-9223372036854775808!" =
      .error ⟨.integerOutOfRange, "9223372036854775808".toList, 10⟩ := by
  have hspacing : AllSpacing "\t\n".toList := by decide
  have ha : CalcToken.scan "cos 2 *" = .ok [.cos, .int 2, .mult] := by decide +kernel
  have hb : CalcToken.scan "-9223372036854775808!" =
      .error ⟨.integerOutOfRange, "9223372036854775808".toList, 1⟩ := by decide +kernel
  exact ⟨hspacing, ha, hb,
    (scan_append_spacing "cos 2 *" "-9223372036854775808!" (by decide) hspacing).2.2 _ _ ha hb⟩

end ShiftReduce
