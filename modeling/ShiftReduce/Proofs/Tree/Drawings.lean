import ShiftReduce.Proofs.Engine.Soundness
import ShiftReduce.Proofs.Grammar.RoundTrip
import ShiftReduce.Proofs.Tree.Sexps

/-! # Trees drawn line by line

- `branch`, `indent`: what stands before the first line of a child and before the lines below it.
  They differ, and so the lines of one child can be told from those of the next.
- `Tree.outline_eq_of_forestDrawingLines`: lines are those of one forest, whatever the labels are.
- `Tree.drawing_eq_iff`: and so are drawings, if no label holds a line end.
- `Tree.Derives.named_eq_of_outline`: in derivation trees, names tell leaves from nodes.
- `renderings_unambiguous`: what can be told from the two texts of a tree.
-/

namespace ShiftReduce

namespace Tree

variable {τ υ : Type} [Token τ] [Token υ]

/-! ## Margins -/

/-- What stands before the first line of a child. -/
def branch (last : Bool) : String := if last then "└── " else "├── "

/-- What stands before the lines below a child. -/
def indent (last : Bool) : String := if last then "    " else "│   "

theorem drawingLines_eq (first rest : String) (t : Tree τ) :
    drawingLines first rest t = (first ++ t.symbol) :: forestDrawingLines rest t.children := by
  cases t <;> rfl

theorem forestDrawingLines_cons (rest : String) (t : Tree τ) (ts : List (Tree τ)) :
    forestDrawingLines rest (t :: ts) =
      drawingLines (rest ++ branch ts.isEmpty) (rest ++ indent ts.isEmpty) t ++
        forestDrawingLines rest ts := by
  rw [forestDrawingLines]
  cases ts with
  | nil => exact (List.append_nil _).symm
  | cons t' ts => rfl

theorem outline_eq (t : Tree τ) : t.outline = .node t.symbol (forestOutline t.children) := by
  cases t <;> rfl

theorem length_branch (last : Bool) : (branch last).toList.length = 4 := by
  cases last <;> rfl

theorem length_indent (last : Bool) : (indent last).toList.length = 4 := by
  cases last <;> rfl

theorem branch_injective : ∀ {last last' : Bool}, branch last = branch last' → last = last' := by
  decide

theorem branch_ne_indent : ∀ last last' : Bool, branch last ≠ indent last' := by
  decide

/-- Margins of one length are told from what comes after them. -/
theorem margin_append_inj {rest m m' s s' : String} (hlength : m.toList.length = m'.toList.length)
    (h : rest ++ m ++ s = rest ++ m' ++ s') : m = m' ∧ s = s' := by
  rw [String.append_assoc, String.append_assoc, String.append_right_inj, ← String.toList_inj,
    String.toList_append, String.toList_append] at h
  obtain ⟨hm, hs⟩ := List.append_inj h hlength
  exact ⟨String.toList_inj.mp hm, String.toList_inj.mp hs⟩

/-- The first line of a child tells whether it is the last one. -/
theorem branch_append_inj {rest s s' : String} {last last' : Bool}
    (h : rest ++ branch last ++ s = rest ++ branch last' ++ s') : last = last' ∧ s = s' := by
  obtain ⟨hbranch, hs⟩ :=
    margin_append_inj ((length_branch last).trans (length_branch last').symm) h
  exact ⟨branch_injective hbranch, hs⟩

theorem branch_append_ne_indent_append {rest s s' : String} {last last' : Bool} :
    rest ++ branch last ++ s ≠ rest ++ indent last' ++ s' := by
  intro h
  obtain ⟨hbranch, -⟩ :=
    margin_append_inj ((length_branch last).trans (length_indent last').symm) h
  exact branch_ne_indent last last' hbranch

/-! ## Lines -/

/-- The line begins with this text. -/
def Continues (rest line : String) : Prop := ∃ s, line = rest ++ s

theorem Continues.of_append {rest more line : String} (h : Continues (rest ++ more) line) :
    Continues rest line := by
  obtain ⟨s, rfl⟩ := h
  exact ⟨more ++ s, String.append_assoc⟩

mutual

theorem continues_of_mem_drawingLines : ∀ (t : Tree τ) {first rest before line : String},
    Continues before first → Continues before rest → line ∈ drawingLines first rest t →
    Continues before line
  | .leaf a, first, rest, before, line, hfirst, _, h => by
      rw [List.mem_singleton.mp h]
      obtain ⟨s, rfl⟩ := hfirst
      exact ⟨_, String.append_assoc⟩
  | .node r ts, first, rest, before, line, hfirst, hrest, h => by
      rcases List.mem_cons.mp h with rfl | h
      · obtain ⟨s, rfl⟩ := hfirst
        exact ⟨_, String.append_assoc⟩
      · obtain ⟨s, rfl⟩ := hrest
        exact (continues_of_mem_forestDrawingLines ts h).of_append

theorem continues_of_mem_forestDrawingLines : ∀ (ts : List (Tree τ)) {rest line : String},
    line ∈ forestDrawingLines rest ts → Continues rest line
  | t :: ts, rest, line, h => by
      rw [forestDrawingLines_cons, List.mem_append] at h
      rcases h with h | h
      · exact continues_of_mem_drawingLines t ⟨_, rfl⟩ ⟨_, rfl⟩ h
      · exact continues_of_mem_forestDrawingLines ts h

end

/-- The next child begins on a line of its own. -/
theorem not_continues_head? (ts : List (Tree τ)) (rest : String) (last : Bool) :
    ∀ line ∈ (forestDrawingLines rest ts).head?, ¬ Continues (rest ++ indent last) line := by
  intro line hline
  rintro ⟨s, rfl⟩
  cases ts with
  | nil => cases hline
  | cons t ts =>
      rw [forestDrawingLines_cons, drawingLines_eq] at hline
      exact branch_append_ne_indent_append (Option.some.inj hline)

theorem eq_nil_of_forestDrawingLines {ts : List (Tree τ)} {rest : String}
    (h : forestDrawingLines rest ts = []) : ts = [] := by
  cases ts with
  | nil => rfl
  | cons t ts =>
      rw [forestDrawingLines_cons, drawingLines_eq] at h
      cases h

mutual

theorem outline_eq_of_children : ∀ (t : Tree τ) (u : Tree υ) {rest : String},
    t.symbol = u.symbol →
    forestDrawingLines rest t.children = forestDrawingLines rest u.children →
    t.outline = u.outline
  | .leaf a, u, rest, hsymbol, h => by
      rw [outline_eq u, ← hsymbol, eq_nil_of_forestDrawingLines h.symm]
      rfl
  | .node s ts, u, rest, hsymbol, h => by
      rw [outline_eq u, ← hsymbol, ← outline_eq_of_forestDrawingLines ts u.children h]
      rfl

/-- Lines are those of one forest, with any labels. -/
theorem outline_eq_of_forestDrawingLines : ∀ (ts : List (Tree τ)) (us : List (Tree υ))
    {rest : String}, forestDrawingLines rest ts = forestDrawingLines rest us →
    forestOutline ts = forestOutline us
  | [], us, _, h => by
      rw [eq_nil_of_forestDrawingLines h.symm]
      rfl
  | t :: ts, us, rest, h => by
      cases us with
      | nil => cases eq_nil_of_forestDrawingLines h
      | cons u us =>
          rw [forestDrawingLines_cons, forestDrawingLines_cons, drawingLines_eq, drawingLines_eq,
            List.cons_append, List.cons_append] at h
          obtain ⟨hhead, hlines⟩ := List.cons.inj h
          obtain ⟨hlast, hsymbol⟩ := branch_append_inj hhead
          rw [hlast] at hlines
          -- the lines below the first child are those that go on its margin
          obtain ⟨hchildren, hothers⟩ := Text.append_inj_of_forall
            (fun _ => continues_of_mem_forestDrawingLines t.children)
            (fun _ => continues_of_mem_forestDrawingLines u.children)
            (not_continues_head? ts rest _) (not_continues_head? us rest _) hlines
          rw [forestOutline, forestOutline, outline_eq_of_children t u hsymbol hchildren,
            outline_eq_of_forestDrawingLines ts us hothers]

end

/-! ## Drawings -/

mutual

theorem drawingLines_outline : ∀ (t : Tree τ) (first rest : String),
    drawingLines first rest t.outline = drawingLines first rest t
  | .leaf _, _, _ => rfl
  | .node s ts, first, rest => by
      rw [outline, drawingLines, drawingLines, forestDrawingLines_outline ts rest]

theorem forestDrawingLines_outline : ∀ (ts : List (Tree τ)) (rest : String),
    forestDrawingLines rest (forestOutline ts) = forestDrawingLines rest ts
  | [], _ => rfl
  | t :: ts, rest => by
      have hlast : (forestOutline ts).isEmpty = ts.isEmpty := by cases ts <;> rfl
      rw [forestOutline, forestDrawingLines_cons, forestDrawingLines_cons, hlast,
        drawingLines_outline t, forestDrawingLines_outline ts]

end

theorem isLine_branch : ∀ last, Text.IsLine (branch last) := by
  decide

theorem isLine_indent : ∀ last, Text.IsLine (indent last) := by
  decide

mutual

theorem isLine_of_mem_drawingLines : ∀ (t : Tree τ) {first rest : String}, Text.IsLine first →
    Text.IsLine rest → (∀ s ∈ t.labels, Text.IsLine s) →
    ∀ line ∈ drawingLines first rest t, Text.IsLine line
  | .leaf a, first, rest, hfirst, _, ht, line, h => by
      rw [List.mem_singleton.mp h]
      exact hfirst.append (ht _ List.mem_cons_self)
  | .node s ts, first, rest, hfirst, hrest, ht, line, h => by
      have hlabels := List.forall_mem_cons.mp ht
      rcases List.mem_cons.mp h with rfl | h
      · exact hfirst.append hlabels.1
      · exact isLine_of_mem_forestDrawingLines ts hrest hlabels.2 line h

theorem isLine_of_mem_forestDrawingLines : ∀ (ts : List (Tree τ)) {rest : String},
    Text.IsLine rest → (∀ s ∈ forestLabels ts, Text.IsLine s) →
    ∀ line ∈ forestDrawingLines rest ts, Text.IsLine line
  | t :: ts, rest, hrest, hts, line, h => by
      rw [forestLabels, List.forall_mem_append] at hts
      rw [forestDrawingLines_cons, List.mem_append] at h
      rcases h with h | h
      · exact isLine_of_mem_drawingLines t (hrest.append (isLine_branch _))
          (hrest.append (isLine_indent _)) hts.1 line h
      · exact isLine_of_mem_forestDrawingLines ts hrest hts.2 line h

end

/-- Trees with labels of one line are drawn alike if and only if they have the same outline. -/
theorem drawing_eq_iff {t : Tree τ} {u : Tree υ} (ht : ∀ s ∈ t.labels, Text.IsLine s)
    (hu : ∀ s ∈ u.labels, Text.IsLine s) : t.drawing = u.drawing ↔ t.outline = u.outline := by
  have hempty : Text.IsLine "" := by decide
  have hlines : t.drawing = u.drawing ↔ drawingLines "" "" t = drawingLines "" "" u :=
    Text.lines_inj (isLine_of_mem_drawingLines t hempty hempty ht)
      (isLine_of_mem_drawingLines u hempty hempty hu)
  rw [hlines]
  constructor
  · intro h
    rw [drawingLines_eq, drawingLines_eq, String.empty_append, String.empty_append] at h
    obtain ⟨hsymbol, hchildren⟩ := List.cons.inj h
    exact outline_eq_of_children t u hsymbol hchildren
  · intro h
    rw [← drawingLines_outline t, h, drawingLines_outline]

end Tree

/-! ## Derivation trees -/

variable {g : Grammar} {τ υ : Type} [Token τ] [Token υ]

theorem Grammar.Names.symbolName_eq (hg : g.WellFormed) {t : TerminalId} {name : String}
    (h : g.Names t name) : g.Allows (.terminal t) ∧ g.symbolName (.terminal t) = name := by
  obtain ⟨x, hx, rfl, rfl, hne⟩ := h
  obtain ⟨k, hx⟩ := OrderedMap.mem_values.mp hx
  obtain rfl : k = x.id := hg.terminal_id _ hx
  refine ⟨⟨hne, OrderedMap.mem_keys.mpr ⟨x, hx⟩⟩, ?_⟩
  rw [Grammar.symbolName, Grammar.terminalName,
    OrderedMap.find?_of_mem_entries hg.terminal_keys hx]

theorem isUnbroken_of_isValidName {name : String} (h : isValidName name = true) :
    Text.IsUnbroken name :=
  (isWord_of_isValidName h).1.not_blank

/-- White space stands in no name, nor in that of the end of the input. -/
theorem Grammar.WellFormed.isUnbroken_of_mem (hg : g.WellFormed) {name : String}
    (h : name ∈ g.terminals.values.map (·.name) ++ g.nonterminals.values.map (·.name)) :
    Text.IsUnbroken name := by
  rcases List.mem_append.mp h with h | h
  · obtain ⟨x, hx, rfl⟩ := List.mem_map.mp h
    have hname := hg.terminal_names x hx
    split at hname
    · rw [hname]
      decide
    · exact isUnbroken_of_isValidName hname
  · obtain ⟨x, hx, rfl⟩ := List.mem_map.mp h
    exact isUnbroken_of_isValidName (hg.nonterminal_names x hx)

theorem Tree.Derives.symbol_eq (hg : g.WellFormed) {s : Symbol} {t : Tree τ}
    (h : Tree.Derives g s t) : g.Allows s ∧ t.symbol = g.symbolName s := by
  cases h with
  | leaf h =>
      obtain ⟨hallows, hname⟩ := h.symbolName_eq hg
      exact ⟨hallows, hname.symm⟩
  | node rule _ => exact ⟨rule.declared hg, rfl⟩

/-- Different symbols have different names, so a label tells a leaf from a node. -/
theorem Tree.Derives.symbol_unique (hg : g.WellFormed) {s s' : Symbol} {t : Tree τ} {u : Tree υ}
    (h : Tree.Derives g s t) (h' : Tree.Derives g s' u) (heq : t.symbol = u.symbol) : s = s' := by
  obtain ⟨hallows, hname⟩ := h.symbol_eq hg
  obtain ⟨hallows', hname'⟩ := h'.symbol_eq hg
  exact hg.symbolName_injective hallows hallows' (hname.symm.trans (heq.trans hname'))

theorem Tree.Derives.isValidName_symbol (hg : g.WellFormed) {s : Symbol} {t : Tree τ}
    (h : Tree.Derives g s t) : isValidName t.symbol = true := by
  obtain ⟨hallows, hname⟩ := h.symbol_eq hg
  rw [hname]
  exact hg.isValidName_symbolName hallows

mutual

theorem Tree.Derives.isValidName_of_mem (hg : g.WellFormed) : ∀ {s : Symbol} {t : Tree τ},
    Tree.Derives g s t → ∀ name ∈ t.labels, isValidName name = true
  | _, _, .leaf h, name, hname => by
      rw [List.mem_singleton.mp hname]
      exact (Tree.Derives.leaf h).isValidName_symbol hg
  | _, _, .node rule children, name, hname => by
      rcases List.mem_cons.mp hname with rfl | hname
      · exact (Tree.Derives.node rule children).isValidName_symbol hg
      · exact children.isValidName_of_mem hg name hname

theorem Forest.Derives.isValidName_of_mem (hg : g.WellFormed) : ∀ {ss : List Symbol}
    {ts : List (Tree τ)}, Forest.Derives g ss ts →
    ∀ name ∈ Tree.forestLabels ts, isValidName name = true
  | _, _, .cons first rest, name, hname => by
      rcases List.mem_append.mp hname with hname | hname
      · exact first.isValidName_of_mem hg name hname
      · exact rest.isValidName_of_mem hg name hname

end

mutual

/-- The names of terminals are no names of nonterminals. -/
theorem Tree.Derives.named_eq_of_outline (hg : g.WellFormed) : ∀ {s s' : Symbol} {t : Tree τ}
    {u : Tree υ}, Tree.Derives g s t → Tree.Derives g s' u → t.outline = u.outline →
    t.named = u.named
  | _, _, _, _, .leaf h, .leaf h', heq => congrArg Tree.leaf (Tree.node.inj heq).1
  | _, _, _, _, .leaf h, .node rule children, heq => by
      cases (Tree.Derives.leaf h).symbol_unique hg (.node rule children) (Tree.node.inj heq).1
  | _, _, _, _, .node rule children, .leaf h, heq => by
      cases (Tree.Derives.node rule children).symbol_unique hg (.leaf h) (Tree.node.inj heq).1
  | _, _, _, _, .node rule children, .node rule' children', heq => by
      obtain ⟨hsymbol, hforest⟩ := Tree.node.inj heq
      rw [Tree.named, Tree.named, hsymbol, children.named_eq_of_outline hg children' hforest]

theorem Forest.Derives.named_eq_of_outline (hg : g.WellFormed) : ∀ {ss ss' : List Symbol}
    {ts : List (Tree τ)} {us : List (Tree υ)}, Forest.Derives g ss ts → Forest.Derives g ss' us →
    Tree.forestOutline ts = Tree.forestOutline us → Tree.forestNamed ts = Tree.forestNamed us
  | _, _, _, _, .nil, .nil, _ => rfl
  | _, _, _, _, .cons first rest, .cons first' rest', heq => by
      obtain ⟨hfirst, hrest⟩ := List.cons.inj heq
      rw [Tree.forestNamed, Tree.forestNamed, first.named_eq_of_outline hg first' hfirst,
        rest.named_eq_of_outline hg rest' hrest]

end

namespace Tree

mutual

/-- Strings are their own names. -/
theorem named_eq_self : ∀ t : Tree String, t.named = t
  | .leaf _ => rfl
  | .node s ts => congrArg (Tree.node s) (forestNamed_eq_self ts)

theorem forestNamed_eq_self : ∀ ts : List (Tree String), forestNamed ts = ts
  | [] => rfl
  | t :: ts => congrArg₂ List.cons (named_eq_self t) (forestNamed_eq_self ts)

end

theorem Derives.drawing_eq_iff (hg : g.WellFormed) {s s' : Symbol} {t u : Tree String}
    (ht : Derives g s t) (hu : Derives g s' u) : t.drawing = u.drawing ↔ t = u := by
  have hlines {s : Symbol} {t : Tree String} (h : Derives g s t) :
      ∀ name ∈ t.labels, Text.IsLine name := fun name hname =>
    (isUnbroken_of_isValidName (h.isValidName_of_mem hg name hname)).isLine
  constructor
  · intro h
    have houtline := (Tree.drawing_eq_iff (hlines ht) (hlines hu)).mp h
    rw [← named_eq_self t, ← named_eq_self u, ht.named_eq_of_outline hg hu houtline]
  · rintro rfl
    rfl

end Tree

/-- The trees that one table makes of strings are told by their drawings. -/
theorem Grammar.IsBuilt.drawing_eq_iff (hg : g.IsBuilt) {policy : ConflictPolicy}
    {table : ParsingTable} (htable : g.table policy = .ok table) {m n : Nat} {v w : List String}
    {t u : Tree String} (ht : table.parseTable.parse? m v = some (.ok t))
    (hu : table.parseTable.parse? n w = some (.ok u)) : t.drawing = u.drawing ↔ t = u := by
  obtain ⟨a, haug, rfl, -, -⟩ := table_eq_ok htable
  have ha := augments_of_augment hg.wellFormed haug
  have hderives {n : Nat} {w : List String} {t : Tree String}
      (h : a.table.parseTable.parse? n w = some (.ok t)) :
      Tree.Derives g (.nonterminal g.start) t := by
    obtain ⟨c, hc, hstep⟩ :=
      (Augmented.sound_of_run ha w).2 _ (ParseTable.parse?_eq_some_iff.mp h)
    exact (hc.isParse ha hstep).1
  exact (hderives ht).drawing_eq_iff hg.wellFormed (hderives hu)

/-! ## Both renderings -/

/-- A drawing tells the labels and how they are nested, and no more. White space in no label is
enough for that, and there is none in the names of a grammar; so the trees of one table are told
from each other. The text on one line tells the tree, with the names of its tokens. -/
theorem renderings_unambiguous :
    (∀ {τ υ : Type} [Token τ] [Token υ] (t : Tree τ) (u : Tree υ),
      (∀ s ∈ t.labels, Text.IsUnbroken s) → (∀ s ∈ u.labels, Text.IsUnbroken s) →
      (t.drawing = u.drawing ↔ t.outline = u.outline)) ∧
    (∀ g : Grammar, g.IsBuilt →
      (∀ name ∈ g.terminals.values.map (·.name) ++ g.nonterminals.values.map (·.name),
        Text.IsUnbroken name) ∧
      ∀ policy table, g.table policy = .ok table → ∀ m n v w (t u : Tree String),
        table.parseTable.parse? m v = some (.ok t) → table.parseTable.parse? n w = some (.ok u) →
        t ≠ u → t.drawing ≠ u.drawing) ∧
    ∀ {τ υ : Type} [Token τ] [Token υ] (t : Tree τ) (u : Tree υ),
      (∀ s ∈ t.labels, Tree.IsBare s) → (∀ s ∈ u.labels, Tree.IsBare s) →
      (t.sexp = u.sexp ↔ t.named = u.named) := by
  refine ⟨?_, ?_, ?_⟩
  · intro τ υ _ _ t u ht hu
    exact Tree.drawing_eq_iff (fun s hs => (ht s hs).isLine) (fun s hs => (hu s hs).isLine)
  · intro g hg
    refine ⟨fun name => hg.wellFormed.isUnbroken_of_mem, ?_⟩
    intro policy table htable m n v w t u ht hu hne heq
    exact hne ((hg.drawing_eq_iff htable ht hu).mp heq)
  · intro τ υ _ _ t u ht hu
    exact Tree.sexp_eq_iff ht hu

/-- Labels that look like margins, a leaf in place of a node without children, and two trees of an
ambiguous grammar. -/
theorem renderings_unambiguous_boxes :
    Tree.drawing (.node "├──" [.leaf "│", .node "" [.leaf "└──"]]) =
      Tree.drawing (.node "├──" [.node "│" [], .node "" [.leaf "└──"]] : Tree String) ∧
    Tree.drawing (.node "├──" [.leaf "│", .leaf "└──"]) ≠
      Tree.drawing (.node "├──" [.node "│" [.leaf "└──"]] : Tree String) ∧
    (∃ g t, Grammar.ofSource "E\nn, +\nE -> E + E | n\n" = .ok g ∧ g.table .warn = .ok t ∧
      ∃ T U : Tree String, t.parseTable.parse? 4 ["n"] = some (.ok T) ∧
        t.parseTable.parse? 8 ["n", "+", "n"] = some (.ok U) ∧ T.drawing ≠ U.drawing) ∧
    Tree.sexp (.node "E" [.leaf "E", .leaf "n"]) ≠
      Tree.sexp (.node "E" [.node "E" [], .leaf "n"] : Tree String) := by
  obtain ⟨hdrawings, htables, hsexps⟩ := renderings_unambiguous
  obtain ⟨g, t, hg, ht, hcheck⟩ := exists_table "E\nn, +\nE -> E + E | n\n" .warn
    (fun _ t => decide (
      t.parseTable.parse? 4 ["n"] = some (.ok (.node "E" [.leaf "n"])) ∧
      t.parseTable.parse? 8 ["n", "+", "n"] = some (.ok
        (.node "E" [.node "E" [.leaf "n"], .leaf "+", .node "E" [.leaf "n"]]))))
    (by decide +kernel)
  obtain ⟨hshort, hlong⟩ := of_decide_eq_true hcheck
  refine ⟨?_, ?_, ⟨g, t, hg, ht, _, _, hshort, hlong, ?_⟩, ?_⟩
  · exact (hdrawings _ _ (by decide) (by decide)).mpr (by decide)
  · exact fun h => absurd ((hdrawings _ _ (by decide) (by decide)).mp h) (by decide)
  · exact (htables g (.inr ⟨_, hg⟩)).2 _ t ht _ _ _ _ _ _ hshort hlong (by decide)
  · exact fun h => absurd ((hsexps _ _ (by decide) (by decide)).mp h) (by decide)

end ShiftReduce
