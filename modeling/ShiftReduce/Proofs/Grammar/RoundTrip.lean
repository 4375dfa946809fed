import ShiftReduce.Proofs.Grammar.Contents
import ShiftReduce.Proofs.Grammar.Loading
import ShiftReduce.Proofs.Grammar.Sources
import ShiftReduce.Proofs.Text.Joined

/-! # Reading what has been written

- `IsContentLine`, `contentLines_eq`: lines that are read as they are written.
- `declaredNames_intercalate`, `Grammar.WellFormed.ruleLine_render`: what the lines of a grammar
  say, whatever its names are.
- `Grammar.IsWritable.isRead`: so its lines are read as its content.
- `ofSource_writtenLines`: and the grammar that is read from them is the one that was written.
-/

namespace ShiftReduce

/-! ## Names -/

theorem isWord_of_isValidName {name : String} (h : isValidName name = true) :
    Text.IsWord name.toList ∧ ',' ∉ name.toList ∧ '|' ∉ name.toList := by
  simp only [isValidName, Bool.and_eq_true, bne_iff_ne, Bool.not_eq_true', List.any_eq_false,
    Bool.or_eq_true, beq_iff_eq, not_or, Bool.not_eq_true] at h
  obtain ⟨⟨hne, -⟩, hchars⟩ := h
  refine ⟨⟨?_, fun c hc => (hchars c hc).1.1⟩, fun hc => (hchars _ hc).1.2 rfl,
    fun hc => (hchars _ hc).2 rfl⟩
  intro hnil
  exact hne (String.toList_eq_nil_iff.mp hnil)

/-! ## Lines -/

structure IsContentLine (line : List Char) : Prop where
  trimmed : Text.trim line = line
  ne_nil : line ≠ []
  mark : line.head? ≠ some '#'
  single : '\n' ∉ line

/-- The last line may be ended or not. -/
theorem contentLines_eq {source : String} {lines : List (List Char)}
    (hsource : Text.splitOn '\n' source.toList = lines ∨
      Text.splitOn '\n' source.toList = lines ++ [[]])
    (hlines : ∀ line ∈ lines, IsContentLine line) : contentLines source = lines := by
  have htrim : lines.map Text.trim = lines :=
    (List.map_congr_left fun line hline => (hlines line hline).trimmed).trans (List.map_id lines)
  have hkept : lines.filter (fun line => line ≠ [] ∧ line.head? ≠ some '#') = lines := by
    rw [List.filter_eq_self]
    exact fun line hline => decide_eq_true ⟨(hlines line hline).ne_nil, (hlines line hline).mark⟩
  rw [contentLines]
  rcases hsource with hsource | hsource
  · rw [hsource, htrim, hkept]
  · rw [hsource, List.map_append, htrim, List.filter_append, hkept]
    exact List.append_nil lines

theorem isContentLine_intercalate {sep w : List Char} {ws : List (List Char)} (hsep : '\n' ∉ sep)
    (hws : ∀ v ∈ w :: ws, Text.IsWord v) (hmark : w.head? ≠ some '#') :
    IsContentLine (sep.intercalate (w :: ws)) where
  trimmed := Text.trim_intercalate hws
  ne_nil := by
    rw [Text.intercalate_cons]
    exact List.append_ne_nil_of_left_ne_nil (hws w List.mem_cons_self).ne_nil _
  mark := by
    rwa [Text.head?_intercalate (hws w List.mem_cons_self).ne_nil]
  single := by
    intro hmem
    rcases Text.mem_of_mem_intercalate hmem with hmem | ⟨v, hv, hmem⟩
    · exact hsep hmem
    · have hblank := (hws v hv).not_blank '\n' hmem
      revert hblank
      decide

/-! ## Declaration lines -/

theorem declaredNames_intercalate {names : List String} (hne : names ≠ [])
    (hnames : ∀ name ∈ names, isValidName name = true) :
    declaredNames (", ".intercalate names).toList = names := by
  have hpieces : (Text.splitOn ',' (", ".intercalate names).toList).map Text.trim =
      names.map String.toList := by
    rw [String.toList_intercalate]
    apply Text.map_trim_splitOn_intercalate
    · rwa [Ne, List.map_eq_nil_iff]
    · rw [List.forall_mem_map]
      exact fun name hname => (isWord_of_isValidName (hnames name hname)).1
    · rw [List.forall_mem_map]
      exact fun name hname => (isWord_of_isValidName (hnames name hname)).2.1
  calc declaredNames (", ".intercalate names).toList
      = ((Text.splitOn ',' (", ".intercalate names).toList).map Text.trim).map String.ofList := by
        rw [declaredNames, List.map_map]
        rfl
    _ = names := by
        rw [hpieces, List.map_map]
        exact List.map_id'' (fun _ => String.ofList_toList) names

theorem isContentLine_names {names : List String} (hne : names ≠ [])
    (hnames : ∀ name ∈ names, isValidName name = true)
    (hmark : ∀ name, names.head? = some name → name.toList.head? ≠ some '#') :
    IsContentLine (", ".intercalate names).toList := by
  cases names with
  | nil => exact absurd rfl hne
  | cons name names =>
      rw [String.toList_intercalate, List.map_cons]
      apply isContentLine_intercalate (by decide)
      · rw [← List.map_cons, List.forall_mem_map]
        exact fun name hname => (isWord_of_isValidName (hnames name hname)).1
      · exact hmark name rfl

/-! ## Lines of rules -/

theorem wordsOf_intercalate {words : List String} (hne : words ≠ [])
    (hwords : ∀ w ∈ words, Text.IsWord w.toList) :
    wordsOf (' ' :: [' '].intercalate (words.map String.toList)) = words := by
  have hsplit : Text.words ([' '].intercalate (words.map String.toList)) =
      words.map String.toList := by
    apply Text.words_intercalate rfl
    · rwa [Ne, List.map_eq_nil_iff]
    · rwa [List.forall_mem_map]
  rw [wordsOf, Text.words_cons_of_isBlank rfl, hsplit, List.map_map]
  exact List.map_id'' (fun _ => String.ofList_toList) words

/-- What stands before the arrow holds none, and what stands behind it is one alternative. -/
theorem ruleLine_intercalate {head : String} {words : List String}
    (hhead : Text.IsWord head.toList) (harrow : ¬ ['-', '>'] <:+: head.toList)
    (hne : words ≠ []) (hwords : ∀ w ∈ words, Text.IsWord w.toList ∧ '|' ∉ w.toList) :
    RuleLine (" ".intercalate (head :: "->" :: words)).toList [(head, words)] := by
  have htext : (" ".intercalate (head :: "->" :: words)).toList = (head.toList ++ [' ']) ++
      '-' :: '>' :: ' ' :: [' '].intercalate (words.map String.toList) := by
    obtain ⟨w, ws, rfl⟩ := List.exists_cons_of_ne_nil hne
    rw [String.toList_intercalate, List.map_cons, List.map_cons, List.map_cons,
      List.intercalate_cons_cons, List.intercalate_cons_cons]
    rfl
  -- a head may end with half an arrow, but the blank comes before the other half
  have hfirst : ¬ ['-', '>'] <:+: head.toList ++ [' '] := by
    rw [List.infix_concat_iff, not_or]
    refine ⟨?_, harrow⟩
    rintro ⟨before, hbefore⟩
    have hlast := congrArg List.getLast? hbefore
    simp at hlast
  have hbar : '|' ∉ ' ' :: [' '].intercalate (words.map String.toList) := by
    rw [List.mem_cons, not_or]
    refine ⟨by decide, fun hmem => ?_⟩
    rcases Text.mem_of_mem_intercalate hmem with hmem | ⟨v, hv, hmem⟩
    · revert hmem
      decide
    · obtain ⟨w, hw, rfl⟩ := List.mem_map.mp hv
      exact (hwords w hw).2 hmem
  have hline : RuleLine _ (alternativesOf (String.ofList (Text.trim (head.toList ++ [' '])))
      (' ' :: [' '].intercalate (words.map String.toList))) := .cut hfirst
  rw [← htext, hhead.trim_append rfl, String.ofList_toList, alternativesOf,
    Text.splitOn_of_not_mem hbar, List.map_singleton,
    wordsOf_intercalate hne fun w hw => (hwords w hw).1] at hline
  exact hline

namespace Grammar

variable {g : Grammar}

theorem WellFormed.isWord_bodyWords (hg : g.WellFormed) {r : Rule} (hr : r ∈ g.rules.values) :
    ∀ w ∈ g.bodyWords r.body, Text.IsWord w.toList ∧ '|' ∉ w.toList := by
  rw [bodyWords]
  split
  · rw [List.forall_mem_singleton]
    exact ⟨by decide, by decide⟩
  · rw [List.forall_mem_map]
    intro s hs
    obtain ⟨hword, -, hbar⟩ :=
      isWord_of_isValidName (hg.isValidName_symbolName (hg.bodies r hr s hs))
    exact ⟨hword, hbar⟩

theorem bodyWords_ne_nil (g : Grammar) (body : List Symbol) : g.bodyWords body ≠ [] := by
  rw [bodyWords]
  split
  · simp
  · next hne => simpa [List.isEmpty_iff] using hne

theorem render_eq (g : Grammar) (r : Rule) :
    r.render g = " ".intercalate (g.nonterminalName r.head :: "->" :: g.bodyWords r.body) := by
  have hbody : (if r.body.isEmpty then epsilon else " ".intercalate (r.body.map g.symbolName)) =
      " ".intercalate (g.bodyWords r.body) := by
    rw [bodyWords]
    split
    · rw [String.intercalate_singleton]
    · rfl
  obtain ⟨w, ws, hws⟩ := List.exists_cons_of_ne_nil (g.bodyWords_ne_nil r.body)
  have hjoin : " ".intercalate (g.nonterminalName r.head :: "->" :: g.bodyWords r.body) =
      g.nonterminalName r.head ++ " -> " ++ " ".intercalate (g.bodyWords r.body) := by
    rw [hws, String.intercalate_cons_cons, String.intercalate_cons_cons, ← String.toList_inj]
    simp [String.toList_append]
  rw [hjoin, ← hbody]
  rfl

theorem IsWritable.ruleLine_render (hw : g.IsWritable) (hg : g.WellFormed) {r : Rule}
    (hr : r ∈ g.rules.values) :
    RuleLine (r.render g).toList [(g.nonterminalName r.head, g.bodyWords r.body)] := by
  have hhead := hg.nonterminalName_mem (hg.heads r hr)
  rw [render_eq]
  exact ruleLine_intercalate (isWord_of_isValidName (hg.isValidName_nonterminalNames hhead)).1
    (hw.arrows _ hhead) (g.bodyWords_ne_nil r.body) (hg.isWord_bodyWords hr)

theorem IsWritable.isContentLine_render (hw : g.IsWritable) (hg : g.WellFormed) {r : Rule}
    (hr : r ∈ g.rules.values) : IsContentLine (r.render g).toList := by
  have hhead := hg.nonterminalName_mem (hg.heads r hr)
  rw [render_eq, String.toList_intercalate, List.map_cons, List.map_cons]
  apply isContentLine_intercalate (by decide)
  · rw [List.forall_mem_cons, List.forall_mem_cons, List.forall_mem_map]
    exact ⟨(isWord_of_isValidName (hg.isValidName_nonterminalNames hhead)).1,
      by decide, fun w hw => (hg.isWord_bodyWords hr w hw).1⟩
  · exact hw.nonterminal_marks _ hhead

theorem IsWritable.isContentLine (hw : g.IsWritable) (hg : g.WellFormed) :
    ∀ line ∈ g.writtenLines.map String.toList, IsContentLine line := by
  rw [writtenLines, List.forall_mem_map, List.forall_mem_cons, List.forall_mem_cons,
    List.forall_mem_map]
  refine ⟨?_, ?_, fun r hr => hw.isContentLine_render hg hr⟩
  · apply isContentLine_names
    · exact List.ne_nil_of_mem (hg.nonterminalName_mem hg.start)
    · exact fun name => hg.isValidName_nonterminalNames
    · exact fun name hname => hw.nonterminal_marks name (List.mem_of_head? hname)
  · exact isContentLine_names hw.terminals (fun name => hg.isValidName_terminalNames)
      hw.terminal_mark

theorem IsWritable.isRead (hw : g.IsWritable) (hg : g.WellFormed) {source : String}
    (hsource : contentLines source = g.writtenLines.map String.toList) :
    g.content.IsRead source := by
  have hrules : List.Forall₂ RuleLine ((g.rules.values.map (·.render g)).map String.toList)
      (g.rules.values.map fun r => [(g.nonterminalName r.head, g.bodyWords r.body)]) := by
    rw [List.map_map, List.forall₂_map_left_iff, List.forall₂_map_right_iff, List.forall₂_same]
    exact fun r hr => hw.ruleLine_render hg hr
  have hread := Content.IsRead.intro hsource hrules
  rw [declaredNames_intercalate (List.ne_nil_of_mem (hg.nonterminalName_mem hg.start))
      fun name => hg.isValidName_nonterminalNames,
    declaredNames_intercalate hw.terminals fun name => hg.isValidName_terminalNames] at hread
  rw [content, List.map_eq_flatMap]
  exact hread

end Grammar

/-! ## The grammar that is read -/

theorem Grammar.IsWritable.ofSource_eq {g : Grammar} (hw : g.IsWritable) (hg : g.IsDefined)
    {source : String} (hsource : contentLines source = g.writtenLines.map String.toList) :
    Grammar.ofSource source = .ok g := by
  have hread := hw.isRead hg.wellFormed hsource
  obtain ⟨g', hg', hholds⟩ :=
    ofSource_of_isRead hread hg.wellFormed.content_isValid hg.content_hasRoom
  have hsame : g' = g :=
    (Grammar.isDefined_ofSource hg').eq_of_holds hg hholds (hg.holds_content hw.start)
  rw [hg', hsame]

/-- A grammar that is written line by line is read again as it was, with its numbers, names, rules,
orders and start symbol, whether the last line is ended or not. -/
theorem ofSource_writtenLines {g : Grammar} (hg : g.IsBuilt) (hw : g.IsWritable) :
    Grammar.ofSource (Text.lines g.writtenLines) = .ok g ∧
      Grammar.ofSource ("\n".intercalate g.writtenLines) = .ok g := by
  have hlines := hw.isContentLine hg.wellFormed
  have hsingle : ∀ line ∈ g.writtenLines.map String.toList, '\n' ∉ line :=
    fun line hline => (hlines line hline).single
  constructor
  · apply hw.ofSource_eq hg.isDefined
    apply contentLines_eq (.inr _) hlines
    rw [Text.toList_lines]
    apply Text.splitOn_intercalate (by simp)
    rw [List.forall_mem_append, List.forall_mem_singleton]
    exact ⟨hsingle, by simp⟩
  · apply hw.ofSource_eq hg.isDefined
    apply contentLines_eq (.inl _) hlines
    rw [String.toList_intercalate]
    exact Text.splitOn_intercalate (by simp [Grammar.writtenLines]) hsingle

/-- Names that hold arrows, marks and the ends of arrows. -/
def oddDeclarations : List Declaration :=
  [.nonterminal "S-", .terminal "a->b", .nonterminal "-", .terminal "#c", .nonterminal ">",
    .terminal "->x", .rule 0 [.terminal 1, .nonterminal 1, .nonterminal 2], .rule 1 [],
    .rule 1 [.terminal 2, .nonterminal 0], .rule 2 [.terminal 3]]

theorem ofSource_writtenLines_oddDeclarations : ∃ g, Grammar.define oddDeclarations = .ok g ∧
    g.writtenLines = ["S-, -, >", "a->b, #c, ->x", "S- -> a->b - >", "- -> ε", "- -> #c S-",
      "> -> ->x"] ∧
    Grammar.ofSource (Text.lines g.writtenLines) = .ok g ∧
    Grammar.ofSource ("\n".intercalate g.writtenLines) = .ok g := by
  have hcheck : ((Grammar.define oddDeclarations).toOption.any fun g =>
      decide (g.IsWritable ∧ g.writtenLines = ["S-, -, >", "a->b, #c, ->x", "S- -> a->b - >",
        "- -> ε", "- -> #c S-", "> -> ->x"])) = true := by decide +kernel
  cases hg : Grammar.define oddDeclarations with
  | error e =>
      rw [hg] at hcheck
      cases hcheck
  | ok g =>
      rw [hg] at hcheck
      obtain ⟨hw, hlines⟩ := of_decide_eq_true hcheck
      exact ⟨g, rfl, hlines, ofSource_writtenLines (.inl (.define hg)) hw⟩

end ShiftReduce
