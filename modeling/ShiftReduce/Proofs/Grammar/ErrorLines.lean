import ShiftReduce.Proofs.Grammar.Loading
import ShiftReduce.Proofs.Grammar.SourceLines

/-! # The line that an error names

The reader goes through the lines in order and stops at the first one that is bad. So what is
behind that line has no part in the error, and what is before it is the source of a grammar.

- `addRuleLines_error`: the lines before the one at fault are good.
- `draftOfLines_bad_first`, `draftOfLines_bad_second`, `draftOfLines_bad_rule`: the same for all
  lines of a source.
- `SameLines.exists_append`, `IsCut.significantLines_eq`: the lines of a source that is cut or goes
  on in another way.
- `ofSource_error_line`: the error of a source, and of each source that begins with the same lines.
-/

namespace ShiftReduce

/-! ## Lines that are read -/

theorem addRuleLines_append (d : Draft) (lines lines' : List SourceLine) :
    addRuleLines d (lines ++ lines') =
      (addRuleLines d lines).bind fun d => addRuleLines d lines' := by
  induction lines generalizing d with
  | nil => rfl
  | cons line lines ih =>
      rw [List.cons_append, addRuleLines, addRuleLines]
      cases addRuleLine d line.text with
      | error fault => rfl
      | ok d => exact ih d

theorem addRuleLines_error {d : Draft} {lines : List SourceLine} {e : SourceError}
    (h : addRuleLines d lines = .error e) :
    ∃ before line after d' fault, lines = before ++ line :: after ∧
      addRuleLines d before = .ok d' ∧ addRuleLine d' line.text = .error fault ∧
      e = .malformed line.number fault := by
  induction lines generalizing d with
  | nil => cases h
  | cons line lines ih =>
      rw [addRuleLines] at h
      cases hline : addRuleLine d line.text with
      | error fault =>
          simp only [hline, Except.error.injEq] at h
          exact ⟨[], line, lines, d, fault, rfl, rfl, hline, h.symm⟩
      | ok d' =>
          simp only [hline] at h
          obtain ⟨before, bad, after, d'', fault, rfl, hbefore, hbad, he⟩ := ih h
          refine ⟨line :: before, bad, after, d'', fault, rfl, ?_, hbad, he⟩
          rw [addRuleLines, hline]
          exact hbefore

section draftOfLines

variable {first second : SourceLine} {e : SourceError}

theorem draftOfLines_of_declareSymbols {d : Draft} (h : declareSymbols first second = .ok d)
    (rest : List SourceLine) : draftOfLines (first :: second :: rest) = addRuleLines d rest := by
  rw [draftOfLines, h]

theorem draftOfLines_bad_first
    (h : ¬ Content.IsLoadable ⟨declaredNames first.text, [], []⟩) :
    ∃ e, ∀ second rest,
      draftOfLines (first :: second :: rest) =
        .error (.malformed first.number (.definition e)) := by
  have hfirst := Draft.declareNonterminals_succeeds Draft.lists_empty (declaredNames first.text)
  rw [List.nil_append] at hfirst
  cases hd : declareNonterminals .empty (declaredNames first.text) with
  | error e =>
      refine ⟨e, fun second rest => ?_⟩
      rw [draftOfLines, declareSymbols, hd]
  | ok d =>
      rw [hd] at hfirst
      exact absurd hfirst.1 h

theorem draftOfLines_bad_second
    (hfirst : Content.IsLoadable ⟨declaredNames first.text, [], []⟩)
    (h : ¬ Content.IsLoadable ⟨declaredNames first.text, declaredNames second.text, []⟩) :
    ∃ e, ∀ rest,
      draftOfLines (first :: second :: rest) =
        .error (.malformed second.number (.definition e)) := by
  have hnonterminals :=
    Draft.declareNonterminals_succeeds Draft.lists_empty (declaredNames first.text)
  rw [List.nil_append] at hnonterminals
  cases hd : declareNonterminals .empty (declaredNames first.text) with
  | error e =>
      rw [hd] at hnonterminals
      exact absurd hfirst hnonterminals
  | ok d =>
      rw [hd] at hnonterminals
      have hterminals := Draft.declareTerminals_succeeds hnonterminals.2 (declaredNames second.text)
      rw [List.nil_append] at hterminals
      cases hd' : declareTerminals d (declaredNames second.text) with
      | error e =>
          refine ⟨e, fun rest => ?_⟩
          simp only [draftOfLines, declareSymbols, hd, hd']
      | ok d' =>
          rw [hd'] at hterminals
          exact absurd hterminals.1 h

theorem draftOfLines_bad_rule {rest : List SourceLine}
    (hload : Content.IsLoadable ⟨declaredNames first.text, declaredNames second.text, []⟩)
    (h : draftOfLines (first :: second :: rest) = .error e) :
    ∃ before line after fault, rest = before ++ line :: after ∧ e = .malformed line.number fault ∧
      (∀ before', before' <+: before → ∃ d, draftOfLines (first :: second :: before') = .ok d) ∧
      ∀ after', draftOfLines (first :: second :: (before ++ line :: after')) = .error e := by
  have hsymbols := Draft.declareSymbols_succeeds first second
  cases hd : declareSymbols first second with
  | error e' =>
      rw [hd] at hsymbols
      exact absurd hload hsymbols
  | ok d =>
      rw [draftOfLines_of_declareSymbols hd] at h
      obtain ⟨before, line, after, d', fault, rfl, hbefore, hline, rfl⟩ := addRuleLines_error h
      refine ⟨before, line, after, fault, rfl, rfl, ?_, ?_⟩
      · rintro before' ⟨more, rfl⟩
        rw [draftOfLines_of_declareSymbols hd]
        rw [addRuleLines_append] at hbefore
        cases hbegins : addRuleLines d before' with
        | error e =>
            rw [hbegins] at hbefore
            cases hbefore
        | ok d => exact ⟨d, rfl⟩
      · intro after'
        rw [draftOfLines_of_declareSymbols hd, addRuleLines_append, hbefore]
        show addRuleLines d' (line :: after') = _
        rw [addRuleLines, hline]

end draftOfLines

/-! ## From drafts to grammars -/

/-- Good lines always declare a grammar. -/
theorem exists_ofSource_of_draftOfLines {source : String} {d : Draft}
    (h : draftOfLines (significantLines source) = .ok d) :
    ∃ g, Grammar.ofSource source = .ok g := by
  have hdraft := Draft.draftOfLines_succeeds source
  rw [h] at hdraft
  obtain ⟨⟨c, hread, hvalid, hroom⟩, -⟩ := hdraft
  obtain ⟨g, hg, -⟩ := ofSource_of_isRead hread hvalid hroom
  exact ⟨g, hg⟩

theorem ofSource_eq_error_iff {source : String} {e : SourceError} :
    Grammar.ofSource source = .error e ↔ draftOfLines (significantLines source) = .error e := by
  cases hd : draftOfLines (significantLines source) with
  | error e' => simp only [Grammar.ofSource, hd, Except.error.injEq]
  | ok d =>
      obtain ⟨g, hg⟩ := exists_ofSource_of_draftOfLines hd
      simp only [hg, reduceCtorEq]

/-! ## Sources that are cut -/

section cut

variable {k : Nat} {source source' : String}

theorem pairwise_significantLines (source : String) :
    (significantLines source).Pairwise (·.number < ·.number) := by
  rw [significantLines_eq]
  exact pairwise_significantFrom 1 _

theorem IsCut.significantLines_eq (h : IsCut k source source') :
    significantLines source' = (significantLines source).filter (·.number ≤ k) := by
  rw [ShiftReduce.significantLines_eq, h, significantFrom_take, ← ShiftReduce.significantLines_eq]

theorem SameLines.filter_eq (h : SameLines k source source') :
    (significantLines source').filter (·.number ≤ k) =
      (significantLines source).filter (·.number ≤ k) := by
  rw [significantLines_eq, significantLines_eq, ← significantFrom_take, ← significantFrom_take, h]

/-- In ascending lines the ones with a small number come first. -/
theorem isPrefix_filter_number {lines : List SourceLine}
    (h : lines.Pairwise (·.number < ·.number)) (k : Nat) :
    lines.filter (·.number ≤ k) <+: lines := by
  induction lines with
  | nil => exact List.prefix_refl []
  | cons line lines ih =>
      obtain ⟨hline, hlines⟩ := List.pairwise_cons.mp h
      by_cases hk : line.number ≤ k
      · rw [List.filter_cons_of_pos (by simpa using hk), List.prefix_cons_inj]
        exact ih hlines
      · have hnone : (line :: lines).filter (·.number ≤ k) = [] := by
          rw [List.filter_eq_nil_iff, List.forall_mem_cons]
          refine ⟨by simpa using hk, fun l hl => ?_⟩
          have := hline l hl
          simp only [decide_eq_true_eq]
          omega
        rw [hnone]
        exact List.nil_prefix

/-- A source that begins with the lines up to a significant one has it too. -/
theorem SameLines.exists_append {before after : List SourceLine} {line : SourceLine}
    (hsource : significantLines source = before ++ line :: after)
    (h : SameLines line.number source source') :
    ∃ after', significantLines source' = before ++ line :: after' := by
  have hfirst : (significantLines source).filter (·.number ≤ line.number) = before ++ [line] := by
    have hlines := pairwise_significantLines source
    rw [hsource, List.pairwise_append, List.pairwise_cons] at hlines
    obtain ⟨-, ⟨hafter, -⟩, hbefore⟩ := hlines
    have hle : ∀ l ∈ before, l.number ≤ line.number :=
      fun l hl => (hbefore l hl line List.mem_cons_self).le
    have hgt : ∀ l ∈ after, ¬ l.number ≤ line.number :=
      fun l hl => Nat.not_le.mpr (hafter l hl)
    rw [hsource, List.filter_append, List.filter_cons_of_pos (by simp),
      List.filter_eq_self.mpr fun l hl => decide_eq_true (hle l hl),
      List.filter_eq_nil_iff.mpr fun l hl => by simpa using hgt l hl]
  obtain ⟨after', hlines⟩ := isPrefix_filter_number (pairwise_significantLines source') line.number
  rw [h.filter_eq, hfirst, List.append_assoc, List.singleton_append] at hlines
  exact ⟨after', hlines.symm⟩

end cut

/-! ## The line that an error names -/

section ofSource

variable {source : String} {first second : SourceLine} {rest : List SourceLine}

theorem exists_malformed {e : SourceError} (h : Grammar.ofSource source = .error e) :
    ∃ line fault, e = .malformed line fault := by
  rw [ofSource_eq_error_iff, draftOfLines.eq_def] at h
  split at h
  · cases h
    exact ⟨_, _, rfl⟩
  · cases h
    exact ⟨_, _, rfl⟩
  · split at h
    · next hd =>
        cases h
        rw [declareSymbols] at hd
        split at hd
        · cases hd
          exact ⟨_, _, rfl⟩
        · split at hd
          · cases hd
            exact ⟨_, _, rfl⟩
          · cases hd
    · obtain ⟨-, line, -, -, fault, -, -, -, rfl⟩ := addRuleLines_error h
      exact ⟨_, _, rfl⟩

theorem first_lt_second (hlines : significantLines source = first :: second :: rest) :
    first.number < second.number := by
  have hascending := pairwise_significantLines source
  rw [hlines, List.pairwise_cons] at hascending
  exact hascending.1 second List.mem_cons_self

theorem ofSource_bad_first (hlines : significantLines source = first :: second :: rest)
    (h : ¬ Content.IsLoadable ⟨declaredNames first.text, [], []⟩) :
    ∃ e, ∀ source', SameLines first.number source source' →
      2 ≤ (significantLines source').length →
      Grammar.ofSource source' = .error (.malformed first.number (.definition e)) := by
  obtain ⟨e, he⟩ := draftOfLines_bad_first h
  refine ⟨e, fun source' hsame hlength => ?_⟩
  obtain ⟨after, hlines'⟩ :=
    SameLines.exists_append (show _ = [] ++ first :: second :: rest from hlines) hsame
  rw [List.nil_append] at hlines'
  cases after with
  | nil =>
      rw [hlines'] at hlength
      exact absurd hlength (by simp)
  | cons second' rest' => rw [ofSource_eq_error_iff, hlines', he]

theorem ofSource_bad_second (hlines : significantLines source = first :: second :: rest)
    (hfirst : Content.IsLoadable ⟨declaredNames first.text, [], []⟩)
    (h : ¬ Content.IsLoadable ⟨declaredNames first.text, declaredNames second.text, []⟩) :
    ∃ e, ∀ source', SameLines second.number source source' →
      Grammar.ofSource source' = .error (.malformed second.number (.definition e)) := by
  obtain ⟨e, he⟩ := draftOfLines_bad_second hfirst h
  refine ⟨e, fun source' hsame => ?_⟩
  obtain ⟨after, hlines'⟩ :=
    SameLines.exists_append (show _ = [first] ++ second :: rest from hlines) hsame
  rw [ofSource_eq_error_iff, hlines', List.singleton_append, he]

/-- A line of rules is at fault and no line before it is: up to the terminals and up to each further
line before the one at fault, the source is good. -/
structure FailsAt (source : String) (terminals line : Nat) (fault : Fault) : Prop where
  before : ∀ k source', terminals ≤ k → k < line → IsCut k source source' →
    ∃ g, Grammar.ofSource source' = .ok g
  behind : ∀ k source', line ≤ k → IsCut k source source' →
    Grammar.ofSource source' = .error (.malformed line fault)
  /-- It does not matter how the source goes on. -/
  extended : ∀ source', SameLines line source source' →
    Grammar.ofSource source' = .error (.malformed line fault)

theorem ofSource_bad_rule {line : Nat} {fault : Fault}
    (hlines : significantLines source = first :: second :: rest)
    (hload : Content.IsLoadable ⟨declaredNames first.text, declaredNames second.text, []⟩)
    (h : Grammar.ofSource source = .error (.malformed line fault)) :
    second.number < line ∧ line ∈ rest.map (·.number) ∧
      FailsAt source second.number line fault := by
  rw [ofSource_eq_error_iff, hlines] at h
  obtain ⟨before, bad, after, fault', rfl, he, hbefore, hafter⟩ := draftOfLines_bad_rule hload h
  obtain ⟨rfl, rfl⟩ := SourceError.malformed.inj he
  have hascending := pairwise_significantLines source
  rw [hlines] at hascending
  change ((first :: second :: before) ++ bad :: after).Pairwise _ at hascending
  obtain ⟨hgood, hbad, hacross⟩ := List.pairwise_append.mp hascending
  rw [List.pairwise_cons, List.pairwise_cons] at hgood
  rw [List.pairwise_cons] at hbad
  have hfirst := first_lt_second hlines
  have hsecond : second.number < bad.number := hacross second (by simp) bad List.mem_cons_self
  have hextended : ∀ source', SameLines bad.number source source' →
      Grammar.ofSource source' = .error (.malformed bad.number fault) := by
    intro source' hsame
    obtain ⟨after', hlines'⟩ := SameLines.exists_append
      (show _ = (first :: second :: before) ++ bad :: after from hlines) hsame
    rw [ofSource_eq_error_iff, hlines']
    exact hafter after'
  refine ⟨hsecond, List.mem_map_of_mem (by simp), ?_, ?_, hextended⟩
  · intro k source' hle hlt hcut
    have hdropped : ∀ l ∈ bad :: after, ¬ l.number ≤ k := by
      rw [List.forall_mem_cons]
      exact ⟨by omega, fun l hl => by have := hbad.1 l hl; omega⟩
    have hnone : (bad :: after).filter (·.number ≤ k) = [] :=
      List.filter_eq_nil_iff.mpr fun l hl => by simpa using hdropped l hl
    have hlines' : significantLines source' =
        first :: second :: before.filter (·.number ≤ k) := by
      rw [hcut.significantLines_eq, hlines, List.filter_cons_of_pos (by simp; omega),
        List.filter_cons_of_pos (by simpa using hle), List.filter_append, hnone, List.append_nil]
    obtain ⟨d, hd⟩ := hbefore _ (isPrefix_filter_number hgood.2.2 k)
    rw [← hlines'] at hd
    exact exists_ofSource_of_draftOfLines hd
  · exact fun k source' hle hcut => hextended source' (hcut.sameLines hle)

end ofSource

/-- The error of a source names a line, the first one that is bad. What is behind it has no part in
the error, and up to any line before it, if both declarations are there, the source is one of a
grammar. -/
theorem ofSource_error_line (source : String) :
    (∀ e, Grammar.ofSource source = .error e → ∃ line fault, e = .malformed line fault) ∧
    (∀ line ∈ significantLines source, 1 ≤ line.number ∧
      (physicalLines source)[line.number - 1]?.map Text.trim = some line.text) ∧
    (significantLines source = [] →
      Grammar.ofSource source = .error (.malformed 1 .missingNonterminals)) ∧
    (∀ first, significantLines source = [first] →
      Grammar.ofSource source = .error (.malformed (first.number + 1) .missingTerminals)) ∧
    ∀ first second rest, significantLines source = first :: second :: rest →
      let N := declaredNames first.text
      let T := declaredNames second.text
      (¬ Content.IsLoadable ⟨N, [], []⟩ →
        ∃ e, ∀ source', SameLines first.number source source' →
          2 ≤ (significantLines source').length →
          Grammar.ofSource source' = .error (.malformed first.number (.definition e))) ∧
      (Content.IsLoadable ⟨N, [], []⟩ → ¬ Content.IsLoadable ⟨N, T, []⟩ →
        ∃ e, ∀ source', SameLines second.number source source' →
          Grammar.ofSource source' = .error (.malformed second.number (.definition e))) ∧
      ∀ line fault, Grammar.ofSource source = .error (.malformed line fault) →
        (second.number < line ↔ Content.IsLoadable ⟨N, T, []⟩) ∧
        (second.number < line → line ∈ rest.map (·.number) ∧
          FailsAt source second.number line fault) := by
  refine ⟨fun e => exists_malformed, ?_, ?_, ?_, ?_⟩
  · intro line hline
    rw [significantLines_eq] at hline
    obtain ⟨hle, -, htext⟩ := mem_significantFrom hline
    exact ⟨hle, htext⟩
  · intro hlines
    rw [ofSource_eq_error_iff, hlines, draftOfLines]
  · intro first hlines
    rw [ofSource_eq_error_iff, hlines, draftOfLines]
  · intro first second rest hlines
    refine ⟨ofSource_bad_first hlines, ofSource_bad_second hlines, ?_⟩
    intro line fault herror
    have hload : second.number < line →
        Content.IsLoadable ⟨declaredNames first.text, declaredNames second.text, []⟩ := by
      intro hlt
      by_contra hbad
      have hfirst := first_lt_second hlines
      by_cases hgood : Content.IsLoadable ⟨declaredNames first.text, [], []⟩
      · obtain ⟨e, he⟩ := ofSource_bad_second hlines hgood hbad
        rw [he source rfl] at herror
        cases herror
        omega
      · obtain ⟨e, he⟩ := ofSource_bad_first hlines hgood
        rw [he source rfl (by simp [hlines])] at herror
        cases herror
        omega
    exact ⟨⟨hload, fun h => (ofSource_bad_rule hlines h herror).1⟩,
      fun hlt => (ofSource_bad_rule hlines (hload hlt) herror).2⟩

/-- A comment and a blank line are before the line at fault, and a second bad line is behind it. -/
def faultySource : String := "# rules\nS, A\r\na\n\nS -> A\nA -> b\nX -> a"

theorem ofSource_error_line_faultySource :
    Grammar.ofSource faultySource = .error (.malformed 6 (.unknownSymbol "b")) ∧
      FailsAt faultySource 3 6 (.unknownSymbol "b") := by
  have herror : Grammar.ofSource faultySource = .error (.malformed 6 (.unknownSymbol "b")) := by
    decide +kernel
  have hlines : significantLines faultySource = ⟨2, "S, A".toList⟩ :: ⟨3, ['a']⟩ ::
      [⟨5, "S -> A".toList⟩, ⟨6, "A -> b".toList⟩, ⟨7, "X -> a".toList⟩] := by decide +kernel
  obtain ⟨-, -, hrules⟩ := (ofSource_error_line faultySource).2.2.2.2 _ _ _ hlines
  exact ⟨herror, ((hrules 6 _ herror).2 (by decide)).2⟩

end ShiftReduce
