import ShiftReduce.Proofs.Calculator.WrittenTokens

/-! # The longest lexeme

Of all that spells a token, scanning takes the longest that a text begins with.

- `exists_digitsText`: a text of digits is written with digits.
- `Spelling.eq_of_prefix`: two spellings that a text begins with are one, unless it begins with
  a digit.
- `IsLongest`, `nextLexeme_isLongest`: the next lexeme is a spelling, and every one that the text
  begins with is a part of it; where there is none, the lexeme is one character.
-/

namespace ShiftReduce

/-! ## Digits -/

theorem exists_digitChar {c : Char} (h : c.isDigit = true) : ∃ d : Fin 10, d.val.digitChar = c := by
  obtain ⟨hlow, hhigh⟩ := Char.isDigit_iff_toNat.mp h
  have hlt : c.toNat - '0'.toNat < 10 := (Nat.sub_lt_iff_lt_add hlow).mpr (Nat.lt_succ_of_le hhigh)
  refine ⟨⟨c.toNat - '0'.toNat, hlt⟩, Char.toNat_inj.mp ?_⟩
  rw [Nat.toNat_digitChar_of_lt_ten hlt]
  exact Nat.add_sub_cancel' hlow

theorem exists_digitsText {cs : List Char} (h : ∀ c ∈ cs, c.isDigit = true) :
    ∃ ds, digitsText ds = cs := by
  induction cs with
  | nil => exact ⟨[], rfl⟩
  | cons c cs ih =>
      rw [List.forall_mem_cons] at h
      obtain ⟨d, rfl⟩ := exists_digitChar h.1
      obtain ⟨ds, rfl⟩ := ih h.2
      exact ⟨d :: ds, rfl⟩

theorem isDigit_of_mem_digits (cs : List Char) : ∀ c ∈ digits cs, c.isDigit = true :=
  fun _ hc => List.mem_takeWhile_imp hc

/-! ## Numbers -/

/-- The longest lexeme from a digit on is written with digits, with or without a point. -/
theorem exists_numberLexeme {c : Char} (hc : c.isDigit = true) (cs : List Char) :
    ∃ s : Spelling, (numberLexeme c cs).1 = s.lexeme := by
  obtain ⟨first, rfl⟩ := exists_digitChar hc
  obtain ⟨others, hothers⟩ := exists_digitsText (isDigit_of_mem_digits cs)
  unfold numberLexeme
  rw [← hothers]
  split
  · next rest _ =>
      obtain ⟨fraction, hfraction⟩ := exists_digitsText (isDigit_of_mem_digits rest)
      rw [← hfraction]
      exact ⟨.float first others fraction, rfl⟩
  · exact ⟨.int first others, rfl⟩

theorem prefix_text_numberLexeme (c : Char) (cs : List Char) :
    c :: digits cs <+: (numberLexeme c cs).1.text := by
  unfold numberLexeme
  split
  · exact List.prefix_append _ _
  · exact List.prefix_refl _

theorem text_numberLexeme_point (c : Char) {cs rest : List Char}
    (h : afterDigits cs = '.' :: rest) :
    (numberLexeme c cs).1.text = c :: digits cs ++ '.' :: digits rest := by
  simp [numberLexeme, h]

theorem digits_digitsText_append (ds : List (Fin 10)) (cs : List Char) :
    digits (digitsText ds ++ cs) = digitsText ds ++ digits cs :=
  List.takeWhile_append_of_pos isDigit_of_mem_digitsText

/-- A number that the text begins with is a part of this lexeme. -/
theorem prefix_numberLexeme {c : Char} (hc : c.isDigit = true) {cs : List Char} {s : Spelling}
    (hs : s.IsNumber) (h : s.text <+: c :: cs) : s.text <+: (numberLexeme c cs).1.text := by
  have hdigits : digits (c :: cs) = c :: digits cs := List.takeWhile_cons_of_pos hc
  have hafter : afterDigits (c :: cs) = afterDigits cs := List.dropWhile_cons_of_pos hc
  obtain ⟨rest, hrest⟩ := h
  cases s with
  | int first others =>
      change digitsText (first :: others) ++ rest = c :: cs at hrest
      rw [← hrest, digits_digitsText_append] at hdigits
      have hprefix : digitsText (first :: others) <+: c :: digits cs :=
        hdigits ▸ List.prefix_append _ _
      exact hprefix.trans (prefix_text_numberLexeme c cs)
  | float first others fraction =>
      change digitsText (first :: others) ++ '.' :: digitsText fraction ++ rest = c :: cs at hrest
      rw [List.append_assoc, List.cons_append] at hrest
      rw [← hrest, digits_point] at hdigits
      rw [← hrest, afterDigits_point] at hafter
      rw [text_numberLexeme_point c hafter.symm, ← hdigits, digits_digitsText_append,
        ← List.cons_append, ← List.append_assoc]
      exact List.prefix_append _ _
  | _ => exact absurd hs id

/-! ## Symbols -/

namespace Spelling

theorem isDigit_of_isNumber {s : Spelling} (hs : s.IsNumber) {c : Char} {cs : List Char}
    (h : s.text <+: c :: cs) : c.isDigit = true := by
  cases s with
  | int first others => exact (List.cons_prefix_cons.mp h).1 ▸ isDigit_digitChar first
  | float first others fraction => exact (List.cons_prefix_cons.mp h).1 ▸ isDigit_digitChar first
  | _ => exact absurd hs id

theorem isNumber_of_isDigit {s : Spelling} {c : Char} (hc : c.isDigit = true) {cs : List Char}
    (h : s.text <+: c :: cs) : s.IsNumber := by
  obtain ⟨d, ds, hs, -, hends⟩ := s.exists_text_eq_cons
  rw [hs] at h
  obtain rfl : d = c := (List.cons_prefix_cons.mp h).1
  by_contra hnumber
  have hdigit := hends hnumber
  rw [endsLexeme, hc] at hdigit
  cases hdigit

/-- The first character tells the symbols from each other. -/
theorem eq_of_head? {s s' : Spelling} (hs : ¬ s.IsNumber) (hs' : ¬ s'.IsNumber)
    (h : s.text.head? = s'.text.head?) : s = s' := by
  cases s <;> cases s' <;> first | rfl | exact absurd trivial hs | exact absurd trivial hs' |
    exact absurd h (by decide)

/-- A text that begins with no digit begins with one spelling at most. -/
theorem eq_of_prefix {s s' : Spelling} {c : Char} {cs : List Char} (hc : ¬ c.isDigit = true)
    (h : s.text <+: c :: cs) (h' : s'.text <+: c :: cs) : s = s' := by
  have hhead {s : Spelling} (h : s.text <+: c :: cs) : s.text.head? = some c := by
    obtain ⟨d, ds, hs, -, -⟩ := s.exists_text_eq_cons
    rw [hs] at h ⊢
    rw [(List.cons_prefix_cons.mp h).1]
    rfl
  exact eq_of_head? (fun hs => hc (isDigit_of_isNumber hs h))
    (fun hs => hc (isDigit_of_isNumber hs h')) ((hhead h).trans (hhead h').symm)

end Spelling

/-! ## The next lexeme -/

/-- What the next lexeme is: the longest spelling, or a character that begins none. -/
inductive IsLongest (cs : List Char) : Lexeme → Prop where
  | spelling {s : Spelling} (begins : s.text <+: cs)
      (longest : ∀ s' : Spelling, s'.text <+: cs → s'.text <+: s.text) : IsLongest cs s.lexeme
  | invalid {c : Char} {rest : List Char} (first : cs = c :: rest)
      (none : ∀ s : Spelling, ¬ s.text <+: cs) : IsLongest cs ⟨.invalid, [c]⟩

theorem isLongest_of_prefix {s : Spelling} {c : Char} {cs : List Char} (hc : ¬ c.isDigit = true)
    (h : s.text <+: c :: cs) : IsLongest (c :: cs) s.lexeme :=
  .spelling h fun _ h' => Spelling.eq_of_prefix hc h' h ▸ List.prefix_refl _

theorem nextLexeme_isLongest (c : Char) (cs : List Char) :
    IsLongest (c :: cs) (nextLexeme c cs).1 := by
  fun_cases nextLexeme c cs with
  | case1 c cs hdigit =>
      obtain ⟨s, hs⟩ := exists_numberLexeme hdigit cs
      have htext : (numberLexeme c cs).1.text = s.text := by rw [hs, s.text_lexeme]
      rw [hs]
      refine .spelling ⟨(numberLexeme c cs).2, ?_⟩ fun s' h => ?_
      · rw [← htext, text_numberLexeme]
      · rw [← htext]
        exact prefix_numberLexeme hdigit (Spelling.isNumber_of_isDigit hdigit h) h
  | case2 => exact isLongest_of_prefix (s := .cos) (by decide) (List.prefix_append _ _)
  | case3 => exact isLongest_of_prefix (s := .plus) (by decide) (List.prefix_append _ _)
  | case4 => exact isLongest_of_prefix (s := .minus) (by decide) (List.prefix_append _ _)
  | case5 => exact isLongest_of_prefix (s := .mult) (by decide) (List.prefix_append _ _)
  | case6 => exact isLongest_of_prefix (s := .factorial) (by decide) (List.prefix_append _ _)
  | case7 c cs hcos hplus hminus hmult hfactorial hdigit =>
      refine .invalid rfl fun s h => ?_
      have hsymbol : ¬ s.IsNumber := fun hs => hdigit (Spelling.isDigit_of_isNumber hs h)
      cases s with
      | cos =>
          obtain ⟨hc, rest, hrest⟩ := List.cons_prefix_cons.mp h
          exact hcos rest hc.symm hrest.symm
      | plus => exact hplus (List.cons_prefix_cons.mp h).1.symm
      | minus => exact hminus (List.cons_prefix_cons.mp h).1.symm
      | mult => exact hmult (List.cons_prefix_cons.mp h).1.symm
      | factorial => exact hfactorial (List.cons_prefix_cons.mp h).1.symm
      | _ => exact hsymbol trivial

end ShiftReduce
