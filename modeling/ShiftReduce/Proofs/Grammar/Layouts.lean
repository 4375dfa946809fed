import ShiftReduce.Proofs.Grammar.RoundTrip
import ShiftReduce.Proofs.Grammar.SourceLines

/-! # Sources with the same content

What a source says does not depend on its layout.

- `content?`: what some lines say, as a function of them. `isRead_iff`: it is the content of a
  source, if that is one of a grammar at all.
- `mark`: the first character that is not white space tells whether a line counts.
- `DeclarationEdit.declaredNames_eq`, `RuleEdit.lineContent?_eq`: the edits of one line.
- `LineEdit.content?_eq`: the edits of the lines.
- `ofSource_sameButLayout`: so sources that are the same but for the layout have the same grammar,
  or none of them has one.
-/

namespace ShiftReduce

open Text

/-! ## What lines say -/

/-- The alternatives of a line of rules, if its head may be a name. -/
def lineContent? (line : List Char) : Option (List (String × List String)) :=
  (splitArrow line).bind fun (before, after) =>
    let head := String.ofList (trim before)
    if isValidName head then some (alternativesOf head after) else none

def rulesContent? : List (List Char) → Option (List (String × List String))
  | [] => some []
  | line :: lines =>
      (lineContent? line).bind fun A => (rulesContent? lines).map fun A' => A ++ A'

def content? : List (List Char) → Option Content
  | first :: second :: rest =>
      (rulesContent? rest).map fun A => ⟨declaredNames first, declaredNames second, A⟩
  | _ => none

theorem forall_mem_alternativesOf {head : String} {text : List Char} :
    (∀ p ∈ alternativesOf head text, isValidName p.1 = true) ↔ isValidName head = true := by
  constructor
  · intro h
    obtain ⟨words, hwords⟩ := exists_mem_alternativesOf head text
    exact h _ hwords
  · intro h p hp
    obtain ⟨piece, -, rfl⟩ := List.mem_map.mp hp
    exact h

theorem lineContent?_eq_some_iff {line : List Char} {A : List (String × List String)} :
    lineContent? line = some A ↔ RuleLine line A ∧ ∀ p ∈ A, isValidName p.1 = true := by
  rw [ruleLine_iff, lineContent?]
  cases splitArrow line with
  | none => simp
  | some p =>
      obtain ⟨before, after⟩ := p
      simp only [Option.bind_some, Option.some.injEq, Prod.mk.injEq]
      constructor
      · split
        · next hhead =>
            rintro ⟨⟩
            exact ⟨⟨before, after, ⟨rfl, rfl⟩, rfl⟩, forall_mem_alternativesOf.mpr hhead⟩
        · rintro ⟨⟩
      · rintro ⟨⟨_, _, ⟨rfl, rfl⟩, rfl⟩, hnames⟩
        rw [if_pos (forall_mem_alternativesOf.mp hnames)]

theorem rulesContent?_eq_some_iff {lines : List (List Char)} {A : List (String × List String)} :
    rulesContent? lines = some A ↔
      (∃ A', List.Forall₂ RuleLine lines A' ∧ A = A'.flatten) ∧
        ∀ p ∈ A, isValidName p.1 = true := by
  induction lines generalizing A with
  | nil =>
      simp only [rulesContent?, List.forall₂_nil_left_iff, exists_eq_left, List.flatten_nil,
        Option.some.injEq]
      constructor
      · rintro rfl
        exact ⟨rfl, by simp⟩
      · rintro ⟨rfl, -⟩
        rfl
  | cons line lines ih =>
      simp only [rulesContent?, Option.bind_eq_some_iff, Option.map_eq_some_iff, ih,
        lineContent?_eq_some_iff]
      constructor
      · rintro ⟨B, ⟨hline, hB⟩, C, ⟨⟨A', hlines, rfl⟩, hC⟩, rfl⟩
        exact ⟨⟨B :: A', .cons hline hlines, rfl⟩, List.forall_mem_append.mpr ⟨hB, hC⟩⟩
      · rintro ⟨⟨_, hall, rfl⟩, hA⟩
        obtain ⟨B, A', hline, hlines, rfl⟩ := List.forall₂_cons_left_iff.mp hall
        obtain ⟨hB, hC⟩ := List.forall_mem_append.mp hA
        exact ⟨B, ⟨hline, hB⟩, A'.flatten, ⟨⟨A', hlines, rfl⟩, hC⟩, rfl⟩

/-- No head of valid content is anything but a name. -/
theorem isRead_iff {source : String} {c : Content} (hc : c.IsValid) :
    c.IsRead source ↔ content? (contentLines source) = some c := by
  have hheads : ∀ p ∈ c.alternatives, isValidName p.1 = true := fun p hp =>
    hc.names _ (List.mem_append_left _ (hc.heads p hp))
  constructor
  · rintro ⟨hlines, hrules⟩
    rw [hlines, content?, rulesContent?_eq_some_iff.mpr ⟨⟨_, hrules, rfl⟩, hheads⟩,
      Option.map_some]
  · intro h
    rw [content?.eq_def] at h
    split at h
    · next first second rest hlines =>
        obtain ⟨A, hA, rfl⟩ := Option.map_eq_some_iff.mp h
        obtain ⟨⟨A', hrules, rfl⟩, -⟩ := rulesContent?_eq_some_iff.mp hA
        exact .intro hlines hrules
    · cases h

theorem rulesContent?_append (lines lines' : List (List Char)) :
    rulesContent? (lines ++ lines') =
      (rulesContent? lines).bind fun A => (rulesContent? lines').map fun A' => A ++ A' := by
  induction lines with
  | nil => simp [rulesContent?]
  | cons line lines ih =>
      rw [List.cons_append, rulesContent?, rulesContent?, ih]
      cases lineContent? line with
      | none => rfl
      | some A =>
          cases rulesContent? lines with
          | none => rfl
          | some A' =>
              cases rulesContent? lines' with
              | none => rfl
              | some A'' => exact congrArg some (List.append_assoc A A' A'').symm

theorem rulesContent?_singleton (line : List Char) : rulesContent? [line] = lineContent? line := by
  rw [rulesContent?]
  cases lineContent? line with
  | none => rfl
  | some A => exact congrArg some (List.append_nil A)

/-! ## The ends of a line -/

theorem ignoresEnds_declaredNames : IgnoresEnds declaredNames :=
  (ignoresEnds_trim.comp String.ofList).pieces (by decide)

theorem ignoresEnds_alternativesOf (head : String) : IgnoresEnds (alternativesOf head) :=
  (ignoresEnds_words.comp fun words => (head, words.map String.ofList)).pieces (by decide)

theorem not_infix_append {a ws : List Char} (h : AllBlank ws) (ha : ¬ ['-', '>'] <:+: a) :
    ¬ ['-', '>'] <:+: a ++ ws := by
  have hiff : ['-'] ++ ['>'] <:+: a ++ ws ↔ ['-'] ++ ['>'] <:+: a :=
    h.append_infix_iff (by decide)
  exact fun hinfix => ha (hiff.mp hinfix)

theorem lineContent?_cut {a : List Char} (first : ¬ ['-', '>'] <:+: a) (b : List Char) :
    lineContent? (a ++ '-' :: '>' :: b) =
      if isValidName (String.ofList (trim a)) then
        some (alternativesOf (String.ofList (trim a)) b)
      else none := by
  rw [lineContent?, splitArrow_append first]
  rfl

theorem lineContent?_eq_none {a : List Char} (first : ¬ ['-', '>'] <:+: a) :
    lineContent? a = none := by
  rw [lineContent?, splitArrow_eq_none_iff.mpr first]
  rfl

theorem ignoresEnds_lineContent? : IgnoresEnds lineContent? := by
  intro ws cs ws' h h'
  have hkept : ∀ {a}, ¬ ['-', '>'] <:+: a → ¬ ['-', '>'] <:+: ws ++ a := fun ha hinfix =>
    ha ((h.infix_append_iff (by decide)).mp hinfix)
  cases hcut : splitArrow cs with
  | none =>
      have hcs := splitArrow_eq_none_iff.mp hcut
      rw [lineContent?_eq_none hcs,
        lineContent?_eq_none (not_infix_append h' (hkept hcs))]
  | some p =>
      obtain ⟨a, b⟩ := p
      obtain ⟨rfl, ha⟩ := splitArrow_eq_some_iff.mp hcut
      have hline : ws ++ (a ++ '-' :: '>' :: b) ++ ws' =
          (ws ++ a) ++ '-' :: '>' :: (b ++ ws') := by simp
      rw [hline, lineContent?_cut ha, lineContent?_cut (hkept ha), h.trim_append,
        (ignoresEnds_alternativesOf _).append_right h']

/-! ## Edits of one line -/

theorem declaredNames_append_cons (a b : List Char) :
    declaredNames (a ++ ',' :: b) = declaredNames a ++ declaredNames b := by
  rw [declaredNames, splitOn_append_cons, List.map_append, declaredNames, declaredNames]

theorem alternativesOf_append_cons (head : String) (a b : List Char) :
    alternativesOf head (a ++ '|' :: b) = alternativesOf head a ++ alternativesOf head b := by
  rw [alternativesOf, splitOn_append_cons, List.map_append, alternativesOf, alternativesOf]

theorem DeclarationEdit.declaredNames_eq {line line' : List Char} (h : DeclarationEdit line line') :
    declaredNames line' = declaredNames line := by
  cases h with
  | comma a b left right =>
      rw [declaredNames_append_cons, declaredNames_append_cons,
        ignoresEnds_declaredNames.append_right left, ignoresEnds_declaredNames.append_left right]

/-- A bar before the arrow is a part of the head, which is no name then. -/
theorem lineContent?_bar {a : List Char} (first : ¬ ['-', '>'] <:+: a) (b : List Char) :
    lineContent? (a ++ '|' :: b) = none := by
  cases hcut : splitArrow (a ++ '|' :: b) with
  | none => exact lineContent?_eq_none (splitArrow_eq_none_iff.mp hcut)
  | some p =>
      obtain ⟨h, t⟩ := p
      obtain ⟨hline, hh⟩ := splitArrow_eq_some_iff.mp hcut
      have hbar : '|' ∈ h := by
        rcases List.append_eq_append_iff.mp hline with ⟨d, rfl, hd⟩ | ⟨d, rfl, hd⟩
        · cases d with
          | nil => cases hd
          | cons x d =>
              obtain ⟨rfl, -⟩ := List.cons.inj hd
              simp
        · -- the arrow would be before the bar
          rcases d with _ | ⟨x, _ | ⟨y, d⟩⟩
          · cases hd
          · cases hd
          · obtain ⟨rfl, htail⟩ := List.cons.inj hd
            obtain ⟨rfl, -⟩ := List.cons.inj htail
            exact absurd ⟨h, d, by simp⟩ first
      have hname : ¬ isValidName (String.ofList (trim h)) = true := by
        intro hvalid
        have hfree := (isWord_of_isValidName hvalid).2.2
        rw [String.toList_ofList] at hfree
        exact hfree (mem_trim (by decide) hbar)
      rw [hline, lineContent?_cut hh, if_neg hname]

theorem alternativesOf_gap {ws ws' : List Char} (head : String) (h : AllBlank ws) (hne : ws ≠ [])
    (h' : AllBlank ws') (hne' : ws' ≠ []) (b c : List Char) :
    alternativesOf head (b ++ ws ++ c) = alternativesOf head (b ++ ws' ++ c) := by
  have hpieces := map_words_splitOn_append (show isBlank '|' = false by decide) h h' hne hne' b c
  have hmap : ∀ text, alternativesOf head text =
      ((splitOn '|' text).map words).map fun words => (head, words.map String.ofList) := by
    intro text
    rw [List.map_map]
    rfl
  rw [hmap, hmap, hpieces]

theorem RuleEdit.lineContent?_eq {line line' : List Char} (h : RuleEdit line line') :
    lineContent? line' = lineContent? line := by
  cases h with
  | arrow b first left right =>
      rw [lineContent?_cut first, lineContent?_cut (not_infix_append left first),
        trim_append_of_allBlank left, (ignoresEnds_alternativesOf _).append_left right]
  | @bar ws ws' a b left right =>
      cases hcut : splitArrow a with
      | none =>
          have ha := splitArrow_eq_none_iff.mp hcut
          rw [lineContent?_bar ha, lineContent?_bar (not_infix_append left ha)]
      | some p =>
          obtain ⟨h, t⟩ := p
          obtain ⟨rfl, hh⟩ := splitArrow_eq_some_iff.mp hcut
          have hline : ∀ vs c, h ++ '-' :: '>' :: t ++ vs ++ '|' :: c =
              h ++ '-' :: '>' :: (t ++ vs ++ '|' :: c) := by simp
          have hold := hline [] b
          rw [List.append_nil, List.append_nil] at hold
          rw [hold, hline, lineContent?_cut hh, lineContent?_cut hh, alternativesOf_append_cons,
            alternativesOf_append_cons, (ignoresEnds_alternativesOf _).append_right left,
            (ignoresEnds_alternativesOf _).append_left right]
  | gap b c first old old_ne new new_ne =>
      rw [lineContent?_cut first, lineContent?_cut first,
        alternativesOf_gap _ old old_ne new new_ne]

theorem rulesContent?_split {a : List Char} {alternatives : List (List Char)}
    (first : ¬ ['-', '>'] <:+: a) (hne : alternatives ≠ []) :
    rulesContent? (alternatives.map fun text => a ++ '-' :: '>' :: text) =
      lineContent? (a ++ '-' :: '>' :: ['|'].intercalate alternatives) := by
  induction alternatives with
  | nil => exact absurd rfl hne
  | cons text texts ih =>
      cases texts with
      | nil => rw [List.map_singleton, rulesContent?_singleton, List.intercalate_singleton]
      | cons text' texts =>
          rw [List.map_cons, rulesContent?, ih (List.cons_ne_nil _ _), lineContent?_cut first,
            lineContent?_cut first, lineContent?_cut first, List.intercalate_cons_cons,
            List.append_assoc, List.singleton_append, alternativesOf_append_cons]
          split
          · rfl
          · rfl

/-! ## Lines that count -/

/-- The first character that is not white space. -/
def mark (line : List Char) : Option Char := line.find? (!isBlank ·)

theorem mark_of_allBlank {ws : List Char} (h : AllBlank ws) : mark ws = none := by
  rw [mark, List.find?_eq_none]
  intro c hc
  simp [h c hc]

theorem ignoresEnds_mark : IgnoresEnds mark := by
  intro ws cs ws' h h'
  have hws := mark_of_allBlank h
  have hws' := mark_of_allBlank h'
  rw [mark] at hws hws'
  rw [mark, List.find?_append, List.find?_append, hws, hws', Option.none_or, Option.or_none, mark]

theorem head?_trim (line : List Char) : (trim line).head? = mark line := by
  rw [← ignoresEnds_mark.trim]
  cases htrim : trim line with
  | nil => rfl
  | cons c rest =>
      have hc : isBlank c = false := isBlank_of_trim_eq_cons htrim
      rw [mark, List.find?_cons_of_pos (by simp [hc]), List.head?_cons]

theorem isSignificant_iff {line : List Char} :
    IsSignificant line ↔ mark line ≠ none ∧ mark line ≠ some '#' := by
  simp only [IsSignificant, ← head?_trim, ne_eq, List.head?_eq_none_iff]

theorem isSignificant_congr {line line' : List Char} (h : mark line' = mark line) :
    IsSignificant line' ↔ IsSignificant line := by
  rw [isSignificant_iff, isSignificant_iff, h]

theorem mark_append_cons {c : Char} (hc : isBlank c = false) (a b : List Char) :
    mark (a ++ c :: b) = (mark a).or (some c) := by
  rw [mark, List.find?_append, List.find?_cons_of_pos (by simp [hc]), mark]

theorem mark_append_append {c : Char} {ws : List Char} (hc : isBlank c = false)
    (h : AllBlank ws) (a b b' : List Char) : mark (a ++ ws ++ c :: b') = mark (a ++ c :: b) := by
  rw [mark_append_cons hc, mark_append_cons hc, ignoresEnds_mark.append_right h]

theorem DeclarationEdit.mark_eq {line line' : List Char} (h : DeclarationEdit line line') :
    mark line' = mark line := by
  cases h with
  | comma a b left right => exact mark_append_append (by decide) left a b _

theorem RuleEdit.mark_eq {line line' : List Char} (h : RuleEdit line line') :
    mark line' = mark line := by
  cases h with
  | arrow b first left right => exact mark_append_append (by decide) left _ _ _
  | bar a b left right => exact mark_append_append (by decide) left a b _
  | gap b c first old old_ne new new_ne =>
      rw [mark_append_cons (by decide), mark_append_cons (by decide)]

theorem significant_append (lines lines' : List (List Char)) :
    significant (lines ++ lines') = significant lines ++ significant lines' :=
  List.filter_append lines lines'

theorem significant_cons_of_pos {line : List Char} (h : IsSignificant line)
    (lines : List (List Char)) : significant (line :: lines) = line :: significant lines :=
  List.filter_cons_of_pos (decide_eq_true h)

theorem significant_cons_of_neg {line : List Char} (h : ¬ IsSignificant line)
    (lines : List (List Char)) : significant (line :: lines) = significant lines :=
  List.filter_cons_of_neg (by simpa using h)

/-! ## The lines of a source -/

theorem rulesContent?_map_trim (lines : List (List Char)) :
    rulesContent? (lines.map trim) = rulesContent? lines := by
  induction lines with
  | nil => rfl
  | cons line lines ih =>
      rw [List.map_cons, rulesContent?, rulesContent?, ih, ignoresEnds_lineContent?.trim]

theorem content?_map_trim (lines : List (List Char)) :
    content? (lines.map trim) = content? lines := by
  match lines with
  | [] => rfl
  | [line] => rfl
  | first :: second :: rest =>
      rw [List.map_cons, List.map_cons, content?, content?, rulesContent?_map_trim,
        ignoresEnds_declaredNames.trim, ignoresEnds_declaredNames.trim]

theorem contentLines_eq_significant (source : String) :
    contentLines source = (significant (physicalLines source)).map trim := by
  obtain ⟨rest, hrest, hpieces⟩ := map_trim_splitOn source.toList
  have hnone : rest.filter (fun line => line ≠ [] ∧ line.head? ≠ some '#') = [] := by
    rcases hrest with rfl | rfl
    · rfl
    · rfl
  rw [contentLines, hpieces, List.filter_append, hnone, List.append_nil, List.filter_map]
  rfl

/-- A `\r` in front of the end of a line is trimmed. -/
theorem contentLines_ending (a b : List Char) :
    contentLines (String.ofList (a ++ '\r' :: '\n' :: b)) =
      contentLines (String.ofList (a ++ '\n' :: b)) := by
  have hline : (splitOn '\n' (a ++ ['\r'])).map trim = (splitOn '\n' a).map trim := by
    obtain ⟨ps, p, ha, happend⟩ := exists_splitOn_append '\n' a
    rw [happend ['\r'] ['\r'] [] rfl, ha, List.map_append, List.map_append, List.map_singleton,
      List.map_singleton, trim_append_of_allBlank (by decide)]
  rw [contentLines, contentLines, String.toList_ofList, String.toList_ofList, List.append_cons,
    splitOn_append_cons, splitOn_append_cons, List.map_append, List.map_append, hline]

theorem content?_contentLines (source : String) :
    content? (contentLines source) = content? (significant (physicalLines source)) := by
  rw [contentLines_eq_significant, content?_map_trim]

/-! ## Edits of a source -/

theorem content?_declaration {before after : List (List Char)} {line line' : List Char}
    (hplace : before.length < 2) (h : declaredNames line' = declaredNames line) :
    content? (before ++ line' :: after) = content? (before ++ line :: after) := by
  match before, hplace with
  | [], _ =>
      cases after with
      | nil => rfl
      | cons second after => rw [List.nil_append, List.nil_append, content?, content?, h]
  | [first], _ => rw [List.singleton_append, List.singleton_append, content?, content?, h]

theorem content?_rules {before after lines lines' : List (List Char)}
    (hplace : 2 ≤ before.length) (h : rulesContent? lines' = rulesContent? lines) :
    content? (before ++ lines' ++ after) = content? (before ++ lines ++ after) := by
  match before, hplace with
  | first :: second :: before, _ =>
      simp only [List.cons_append, content?, rulesContent?_append, h]

/-- What has to be kept of a line depends on how many significant lines are before it. -/
theorem content?_edit {before after : List (List Char)} {line line' : List Char}
    (hmark : mark line' = mark line)
    (hnames : (significant before).length < 2 → declaredNames line' = declaredNames line)
    (hrules : 2 ≤ (significant before).length → lineContent? line' = lineContent? line) :
    content? (significant (before ++ line' :: after)) =
      content? (significant (before ++ line :: after)) := by
  rw [significant_append, significant_append]
  by_cases hline : IsSignificant line
  · rw [significant_cons_of_pos hline,
      significant_cons_of_pos ((isSignificant_congr hmark).mpr hline)]
    by_cases hplace : (significant before).length < 2
    · exact content?_declaration hplace (hnames hplace)
    · have hplace := Nat.le_of_not_lt hplace
      have hsingle : rulesContent? [line'] = rulesContent? [line] := by
        rw [rulesContent?_singleton, rulesContent?_singleton, hrules hplace]
      have hcontent := @content?_rules _ (significant after) _ _ hplace hsingle
      rwa [← List.append_cons, ← List.append_cons] at hcontent
  · rw [significant_cons_of_neg hline,
      significant_cons_of_neg ((isSignificant_congr hmark).not.mpr hline)]

theorem LineEdit.content?_eq {lines lines' : List (List Char)} (h : LineEdit lines lines') :
    content? (significant lines') = content? (significant lines) := by
  cases h with
  | insert before after h =>
      rw [significant_append, significant_append, significant_cons_of_neg h]
  | pad before after line left right =>
      apply content?_edit (ignoresEnds_mark _ _ _ left right)
      · exact fun _ => ignoresEnds_declaredNames _ _ _ left right
      · exact fun _ => ignoresEnds_lineContent? _ _ _ left right
  | declaration after line_significant place edit =>
      apply content?_edit edit.mark_eq
      · exact fun _ => edit.declaredNames_eq
      · exact fun hplace => absurd place (Nat.not_lt.mpr hplace)
  | rule after line_significant place edit =>
      apply content?_edit edit.mark_eq
      · exact fun hplace => absurd hplace (Nat.not_lt.mpr place)
      · exact fun _ => edit.lineContent?_eq
  | @split a alternatives before after first nonempty line_significant place =>
      have hall : significant (alternatives.map fun text => a ++ '-' :: '>' :: text) =
          alternatives.map fun text => a ++ '-' :: '>' :: text := by
        apply List.filter_eq_self.mpr
        rw [List.forall_mem_map]
        intro text _
        rw [decide_eq_true_eq, isSignificant_congr _]
        · exact line_significant
        · rw [mark_append_cons (by decide), mark_append_cons (by decide)]
      have hsame := (rulesContent?_split first nonempty).trans (rulesContent?_singleton _).symm
      have hcontent := @content?_rules _ (significant after) _ _ place hsame
      rw [significant_append, significant_append, significant_append,
        significant_cons_of_pos line_significant, hall, hcontent, ← List.append_cons]

theorem LayoutEdit.of_lines {source source' : String} {lines lines' : List (List Char)}
    (edit : LineEdit lines lines') (h : physicalLines source = lines)
    (h' : physicalLines source' = lines') : LayoutEdit source source' := by
  subst h h'
  exact .lines edit

theorem LayoutEdit.content?_eq {source source' : String} (h : LayoutEdit source source') :
    content? (contentLines source') = content? (contentLines source) := by
  cases h with
  | ending a b => rw [contentLines_ending]
  | lines edit => rw [content?_contentLines, content?_contentLines, edit.content?_eq]

theorem SameButLayout.content?_eq {source source' : String} (h : SameButLayout source source') :
    content? (contentLines source) = content? (contentLines source') := by
  induction h with
  | rel source source' h => exact h.content?_eq.symm
  | refl source => rfl
  | symm _ _ _ ih => exact ih.symm
  | trans _ _ _ _ _ ih ih' => exact ih.trans ih'

theorem ofSource_congr {source source' : String} {g : Grammar}
    (hcontent : content? (contentLines source) = content? (contentLines source'))
    (h : Grammar.ofSource source = .ok g) : Grammar.ofSource source' = .ok g := by
  obtain ⟨c, hread, hvalid, hroom, hholds⟩ := exists_content_of_ofSource h
  have hread' : c.IsRead source' := by
    rw [isRead_iff hvalid, ← hcontent]
    exact (isRead_iff hvalid).mp hread
  obtain ⟨g', hg', hholds'⟩ := ofSource_of_isRead hread' hvalid hroom
  have hsame : g' = g := (Grammar.isDefined_ofSource hg').eq_of_holds
    (Grammar.isDefined_ofSource h) hholds' hholds
  rw [hg', hsame]

/-- A grammar does not depend on the layout of its source, and neither does whether there is one. -/
theorem ofSource_sameButLayout {source source' : String} (h : SameButLayout source source') :
    (∃ g, Grammar.ofSource source = .ok g ∧ Grammar.ofSource source' = .ok g) ∨
      ∃ e e', Grammar.ofSource source = .error e ∧ Grammar.ofSource source' = .error e' := by
  have hcontent := h.content?_eq
  cases hg : Grammar.ofSource source with
  | ok g => exact .inl ⟨g, rfl, ofSource_congr hcontent hg⟩
  | error e =>
      cases hg' : Grammar.ofSource source' with
      | ok g =>
          rw [ofSource_congr hcontent.symm hg'] at hg
          cases hg
      | error e' => exact .inr ⟨e, e', rfl, rfl⟩

/-- The end of a line, a comment, white space around a bar, and two lines in the place of one. -/
theorem ofSource_sameButLayout_edited : ∃ g, Grammar.ofSource "S\na\nS->a|S a" = .ok g ∧
    Grammar.ofSource "S\r\na\n# a\nS->a \nS-> S a" = .ok g := by
  have hending : LayoutEdit "S\na\nS->a|S a" "S\r\na\nS->a|S a" :=
    .ending ['S'] ['a', '\n', 'S', '-', '>', 'a', '|', 'S', ' ', 'a']
  have hcomment : LayoutEdit "S\r\na\nS->a|S a" "S\r\na\n# a\nS->a|S a" :=
    .of_lines (.insert [['S'], ['a']] [['S', '-', '>', 'a', '|', 'S', ' ', 'a']]
      (show ¬ IsSignificant ['#', ' ', 'a'] by decide)) (by decide +kernel) (by decide +kernel)
  have hbar : LayoutEdit "S\r\na\n# a\nS->a|S a" "S\r\na\n# a\nS->a | S a" :=
    .of_lines (.rule [] (by decide)
      (show 2 ≤ (significant [['S'], ['a'], ['#', ' ', 'a']]).length by decide)
      (.bar ['S', '-', '>', 'a'] ['S', ' ', 'a'] (show AllBlank [' '] by decide)
        (show AllBlank [' '] by decide))) (by decide +kernel) (by decide +kernel)
  have hsplit : LayoutEdit "S\r\na\n# a\nS->a | S a" "S\r\na\n# a\nS->a \nS-> S a" :=
    .of_lines (.split [] (show ¬ ['-', '>'] <:+: ['S'] by decide)
      (show [['a', ' '], [' ', 'S', ' ', 'a']] ≠ [] by decide) (by decide)
      (show 2 ≤ (significant [['S'], ['a'], ['#', ' ', 'a']]).length by decide))
      (by decide +kernel) (by decide +kernel)
  have hsame : SameButLayout "S\na\nS->a|S a" "S\r\na\n# a\nS->a \nS-> S a" :=
    .trans _ _ _ (.trans _ _ _ (.rel _ _ hending) (.rel _ _ hcomment))
      (.trans _ _ _ (.rel _ _ hbar) (.rel _ _ hsplit))
  rcases ofSource_sameButLayout hsame with hg | ⟨e, e', he, -⟩
  · exact hg
  · have hok : (Grammar.ofSource "S\na\nS->a|S a").isOk = true := by decide +kernel
    rw [he] at hok
    cases hok

end ShiftReduce
