import ShiftReduce.Proofs.Grammar.RuleLines

/-! # Reading a grammar source

- `text_significantLines`: the lines that the reader looks at.
- `Draft.draftOfLines_succeeds`, `Lists.finish`: the draft of a source, and its grammar.
- `ofSource_of_isRead`, `exists_content_of_ofSource`: a grammar comes from what its source says.
- `ofSource_exact`: when a source is accepted, and what its grammar is.
-/

namespace ShiftReduce

theorem text_significantLines (source : String) :
    (significantLines source).map (·.text) = contentLines source := by
  have htexts : (sourceLines source).map (·.text) =
      (Text.splitOn '\n' source.toList).map Text.trim := by
    rw [sourceLines, List.map_map]
    show List.map (Text.trim ∘ Prod.fst) _ = _
    rw [← List.map_map, List.zipIdx_map_fst]
  rw [contentLines, ← htexts, List.filter_map, significantLines]
  congr 2
  funext line
  simp only [SourceLine.isSignificant, Function.comp_apply]
  cases line.text with
  | nil => rfl
  | cons c cs => simp

namespace Draft

variable {d : Draft} {c : Content}

theorem declareSymbols_succeeds (first second : SourceLine) :
    SucceedsIff (declareSymbols first second)
      (Content.IsLoadable ⟨declaredNames first.text, declaredNames second.text, []⟩)
      fun d => d.Lists ⟨declaredNames first.text, declaredNames second.text, []⟩ := by
  have hfirst := declareNonterminals_succeeds lists_empty (declaredNames first.text)
  rw [List.nil_append] at hfirst
  unfold declareSymbols
  cases hd : declareNonterminals empty (declaredNames first.text) with
  | error e =>
      rw [hd] at hfirst
      intro hload
      have hprefix : Content.IsLoadable
          ⟨declaredNames first.text ++ [], [] ++ declaredNames second.text, []⟩ := by
        rw [List.append_nil, List.nil_append]
        exact hload
      exact hfirst hprefix.of_append_names
  | ok d =>
      rw [hd] at hfirst
      have hsecond := declareTerminals_succeeds hfirst.2 (declaredNames second.text)
      rw [List.nil_append] at hsecond
      dsimp only
      cases hd' : declareTerminals d (declaredNames second.text) with
      | error e =>
          rw [hd'] at hsecond
          exact hsecond
      | ok d' =>
          rw [hd'] at hsecond
          exact hsecond

theorem draftOfLines_succeeds (source : String) :
    SucceedsIff (draftOfLines (significantLines source))
      (∃ c : Content, c.IsRead source ∧ c.IsLoadable)
      fun d => ∀ c : Content, c.IsRead source → d.Lists c := by
  have htexts := text_significantLines source
  generalize significantLines source = lines at htexts
  match lines, htexts with
  | [], htexts =>
      rintro ⟨c, ⟨hlines, -⟩, -⟩
      rw [← htexts] at hlines
      cases hlines
  | [line], htexts =>
      rintro ⟨c, ⟨hlines, -⟩, -⟩
      rw [← htexts] at hlines
      cases hlines
  | first :: second :: rest, htexts =>
      have hread : ∀ c : Content, c.IsRead source ↔
          ∃ A, List.Forall₂ RuleLine (rest.map (·.text)) A ∧
            c = ⟨declaredNames first.text, declaredNames second.text, A.flatten⟩ := by
        intro c
        constructor
        · rintro ⟨hlines, hrules⟩
          rw [← htexts] at hlines
          cases hlines
          exact ⟨_, hrules, rfl⟩
        · rintro ⟨A, hrules, rfl⟩
          exact .intro htexts.symm hrules
      have hsymbols := declareSymbols_succeeds first second
      rw [draftOfLines]
      cases hd : declareSymbols first second with
      | error e =>
          rw [hd] at hsymbols
          rintro ⟨c, hc, hload⟩
          obtain ⟨A, -, rfl⟩ := (hread c).mp hc
          rw [← List.nil_append A.flatten] at hload
          exact hsymbols hload.of_append_alternatives
      | ok d =>
          rw [hd] at hsymbols
          apply (addRuleLines_succeeds hsymbols.2 rest).imp
          · simp only [hread, List.nil_append]
            constructor
            · rintro ⟨A, hrules, hload⟩
              exact ⟨_, ⟨A, hrules, rfl⟩, hload⟩
            · rintro ⟨c, ⟨A, hrules, rfl⟩, hload⟩
              exact ⟨A, hrules, hload⟩
          · intro d' hd' c hc
            obtain ⟨A, hrules, rfl⟩ := (hread c).mp hc
            exact hd' A hrules

/-- Without a choice of its own the draft begins with its first nonterminal. -/
theorem Lists.finish (h : d.Lists c) (hne : c.nonterminals ≠ []) :
    ∃ g, d.finish = .ok g ∧ g.Holds c := by
  obtain ⟨⟨k, x⟩, es, hentries⟩ : ∃ e es, d.nonterminals.entries = e :: es := by
    apply List.exists_cons_of_ne_nil
    intro hnil
    have hnames := h.nonterminals
    rw [OrderedMap.values, hnil] at hnames
    exact hne hnames.symm
  have hfind : d.nonterminals.find? k = some x := by
    rw [OrderedMap.find?, hentries]
    simp
  refine ⟨⟨d.terminals, d.nonterminals, d.rules, k⟩, ?_, h.nonterminals, h.terminals, ?_, ?_⟩
  · simp [Draft.finish, h.start, OrderedMap.keys, hentries]
  · rw [← h.nonterminals, OrderedMap.values, hentries, Grammar.nonterminalName]
    simp [hfind]
  · have hnames : (⟨d.terminals, d.nonterminals, d.rules, k⟩ : Grammar).symbolName =
        d.symbolName := by
      funext s
      cases s <;> rfl
    rw [← h.rules, namedRules, Grammar.namedRules, hnames]
    rfl

end Draft

theorem Content.IsRead.nonterminals_ne_nil {source : String} {c : Content} (h : c.IsRead source) :
    c.nonterminals ≠ [] := by
  obtain ⟨hlines, -⟩ := h
  show List.map _ _ ≠ []
  rw [Ne, List.map_eq_nil_iff]
  exact Text.splitOn_ne_nil _ _

theorem ofSource_of_isRead {source : String} {c : Content} (hread : c.IsRead source)
    (hvalid : c.IsValid) (hroom : c.HasRoom) :
    ∃ g, Grammar.ofSource source = .ok g ∧ g.Holds c := by
  have hdraft := Draft.draftOfLines_succeeds source
  cases hd : draftOfLines (significantLines source) with
  | error e =>
      rw [hd] at hdraft
      exact absurd ⟨c, hread, hvalid, hroom⟩ hdraft
  | ok d =>
      rw [hd] at hdraft
      obtain ⟨g, hg, hholds⟩ := (hdraft.2 c hread).finish hread.nonterminals_ne_nil
      refine ⟨g, ?_, hholds⟩
      simp only [Grammar.ofSource, hd, hg]

theorem exists_content_of_ofSource {source : String} {g : Grammar}
    (h : Grammar.ofSource source = .ok g) :
    ∃ c : Content, c.IsRead source ∧ c.IsValid ∧ c.HasRoom ∧ g.Holds c := by
  have hdraft := Draft.draftOfLines_succeeds source
  cases hd : draftOfLines (significantLines source) with
  | error e =>
      rw [Grammar.ofSource, hd] at h
      cases h
  | ok d =>
      rw [hd] at hdraft
      obtain ⟨⟨c, hread, hvalid, hroom⟩, -⟩ := hdraft
      obtain ⟨g', hg', hholds⟩ := ofSource_of_isRead hread hvalid hroom
      rw [h] at hg'
      cases hg'
      exact ⟨c, hread, hvalid, hroom, hholds⟩

/-- A source is accepted if and only if it is in the format and there are enough numbers for what
it says, and then the grammar is exactly what it says. -/
theorem ofSource_exact (source : String) :
    ((∃ g, Grammar.ofSource source = .ok g) ↔
      ∃ c : Content, c.IsRead source ∧ c.IsValid ∧ c.HasRoom) ∧
    ∀ g c, Grammar.ofSource source = .ok g → Content.IsRead source c → g.Holds c := by
  have hdraft := Draft.draftOfLines_succeeds source
  unfold Grammar.ofSource
  cases hd : draftOfLines (significantLines source) with
  | error e =>
      rw [hd] at hdraft
      refine ⟨⟨?_, ?_⟩, ?_⟩
      · rintro ⟨g, hg⟩
        cases hg
      · intro hc
        exact absurd hc hdraft
      · rintro g c hg
        cases hg
  | ok d =>
      rw [hd] at hdraft
      obtain ⟨⟨c, hread, hload⟩, hlists⟩ := hdraft
      obtain ⟨g, hg, -⟩ := (hlists c hread).finish hread.nonterminals_ne_nil
      refine ⟨⟨?_, ?_⟩, ?_⟩
      · rintro -
        exact ⟨c, hread, hload⟩
      · rintro -
        exact ⟨g, by simp only [hg]⟩
      · intro g' c' hg' hread'
        obtain ⟨g'', hg'', hholds⟩ := (hlists c' hread').finish hread'.nonterminals_ne_nil
        simp only [hg''] at hg'
        cases hg'
        exact hholds

/-- Names that look like comments and arrows, and a rule that is there already. -/
def oddSource : String :=
  "# S\nS , A#\n a->b , #c\n\nS -> A# a->b | ε epsilon | A#  a->b\nA#->#c"

theorem ofSource_exact_oddSource :
    ∃ g c, Grammar.ofSource oddSource = .ok g ∧ Content.IsRead oddSource c ∧ g.Holds c ∧
      c.rules = [("S", ["A#", "a->b"]), ("S", []), ("A#", ["#c"])] := by
  have hlines : contentLines oddSource = "S , A#".toList :: "a->b , #c".toList ::
      ["S -> A# a->b | ε epsilon | A#  a->b".toList, "A#->#c".toList] := by decide +kernel
  have hrules : List.Forall₂ RuleLine
      ["S -> A# a->b | ε epsilon | A#  a->b".toList, "A#->#c".toList]
      [alternativesOf "S" " A# a->b | ε epsilon | A#  a->b".toList,
        alternativesOf "A#" "#c".toList] := by
    refine .cons (ruleLine_iff.mpr
      ⟨"S ".toList, " A# a->b | ε epsilon | A#  a->b".toList, ?_, ?_⟩)
      (.cons (ruleLine_iff.mpr ⟨"A#".toList, "#c".toList, ?_, ?_⟩) .nil)
    all_goals decide +kernel
  have hread := Content.IsRead.intro hlines hrules
  have hexact := ofSource_exact oddSource
  obtain ⟨g, hg⟩ := hexact.1.mpr ⟨_, hread,
    ⟨by decide +kernel, by decide +kernel, by decide +kernel, by decide +kernel⟩,
    ⟨by decide +kernel, by decide +kernel, by decide +kernel⟩⟩
  exact ⟨g, _, hg, hread, hexact.2 g _ hg hread, by decide +kernel⟩

end ShiftReduce
