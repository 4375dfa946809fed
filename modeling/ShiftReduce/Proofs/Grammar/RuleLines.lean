import ShiftReduce.Proofs.Grammar.SymbolNames
import ShiftReduce.Proofs.Text.Joined

/-! # Reading the rules of a grammar source

- `splitArrow_eq_some_iff`, `splitArrow_eq_none_iff`, `ruleLine_iff`: a line is cut at its first
  arrow.
- `Draft.alternative_succeeds`, `addAlternatives_succeeds`, `addRuleLines_succeeds`: which
  alternatives are accepted, and what they add.
-/

namespace ShiftReduce

/-! ## Lines -/

namespace Text

theorem splitArrow_cons {c : Char} {cs : List Char}
    (h : ∀ after, c :: cs ≠ '-' :: '>' :: after) :
    splitArrow (c :: cs) = (splitArrow cs).map fun p => (c :: p.1, p.2) := by
  rw [splitArrow.eq_def]
  split
  · next h0 => cases h0
  · next after h0 => exact absurd h0 (h after)
  · next h0 =>
      cases h0
      rfl

theorem splitArrow_append {before : List Char} (h : ¬ ['-', '>'] <:+: before)
    (after : List Char) :
    splitArrow (before ++ '-' :: '>' :: after) = some (before, after) := by
  induction before with
  | nil => rfl
  | cons c before ih =>
      rw [List.infix_cons_iff, not_or] at h
      rw [List.cons_append, splitArrow_cons, ih h.2]
      · rfl
      · -- an arrow at the front would lie within what stands before the cut
        rintro rest heq
        obtain ⟨rfl, hrest⟩ := List.cons.inj heq
        cases before with
        | nil => simp at hrest
        | cons c' before =>
            obtain ⟨rfl, -⟩ := List.cons.inj hrest
            exact h.1 ⟨before, rfl⟩

theorem splitArrow_eq_some_iff {text before after : List Char} :
    splitArrow text = some (before, after) ↔
      text = before ++ '-' :: '>' :: after ∧ ¬ ['-', '>'] <:+: before := by
  constructor
  · intro h
    induction text generalizing before with
    | nil => cases h
    | cons c cs ih =>
        by_cases harrow : ∃ rest, c :: cs = '-' :: '>' :: rest
        · obtain ⟨rest, hrest⟩ := harrow
          rw [hrest] at h ⊢
          cases h
          exact ⟨rfl, by simp⟩
        · rw [splitArrow_cons (not_exists.mp harrow)] at h
          obtain ⟨⟨b, a⟩, hcut, heq⟩ := Option.map_eq_some_iff.mp h
          cases heq
          obtain ⟨rfl, hb⟩ := ih hcut
          refine ⟨rfl, ?_⟩
          rw [List.infix_cons_iff, not_or]
          refine ⟨?_, hb⟩
          rintro ⟨rest, hrest⟩
          rw [List.cons_append] at hrest
          obtain ⟨rfl, rfl⟩ := List.cons.inj hrest
          exact harrow ⟨_, rfl⟩
  · rintro ⟨rfl, h⟩
    exact splitArrow_append h after

theorem splitArrow_eq_none_iff {text : List Char} :
    splitArrow text = none ↔ ¬ ['-', '>'] <:+: text := by
  induction text with
  | nil => simp [splitArrow]
  | cons c cs ih =>
      rw [List.infix_cons_iff, not_or, ← ih]
      by_cases harrow : ∃ rest, c :: cs = '-' :: '>' :: rest
      · obtain ⟨rest, hrest⟩ := harrow
        rw [hrest]
        simp [splitArrow]
      · have hstart : ¬ ['-', '>'] <+: c :: cs := fun ⟨rest, hrest⟩ => harrow ⟨rest, hrest.symm⟩
        rw [splitArrow_cons (not_exists.mp harrow), Option.map_eq_none_iff]
        exact (and_iff_right hstart).symm

end Text

/-- A line has at most one reading. -/
theorem ruleLine_iff {text : List Char} {line : List (String × List String)} :
    RuleLine text line ↔ ∃ before after, Text.splitArrow text = some (before, after) ∧
      line = alternativesOf (String.ofList (Text.trim before)) after := by
  constructor
  · rintro ⟨hfirst⟩
    exact ⟨_, _, Text.splitArrow_append hfirst _, rfl⟩
  · rintro ⟨before, after, hcut, rfl⟩
    obtain ⟨rfl, hfirst⟩ := Text.splitArrow_eq_some_iff.mp hcut
    exact .cut hfirst

theorem RuleLine.unique {text : List Char} {line line' : List (String × List String)}
    (h : RuleLine text line) (h' : RuleLine text line') : line = line' := by
  obtain ⟨before, after, hcut, rfl⟩ := ruleLine_iff.mp h
  obtain ⟨before', after', hcut', rfl⟩ := ruleLine_iff.mp h'
  rw [hcut] at hcut'
  cases hcut'
  rfl

/-- Every line has an alternative, and so its head is told by its alternatives. -/
theorem exists_mem_alternativesOf (head : String) (text : List Char) :
    ∃ words, (head, words) ∈ alternativesOf head text := by
  obtain ⟨piece, pieces, hpieces⟩ :=
    List.exists_cons_of_ne_nil (Text.splitOn_ne_nil '|' text)
  refine ⟨wordsOf piece, ?_⟩
  rw [alternativesOf, hpieces]
  exact List.mem_cons_self

/-! ## Alternatives -/

theorem Content.spelled_eq_nil_iff {words : List String} :
    Content.spelled words = [] ↔ ∀ w ∈ words, isEpsilon w = true := by
  rw [Content.spelled, List.filter_eq_nil_iff]
  simp

namespace Draft

variable {d d' : Draft} {c : Content} {N T : List String} {A : List (String × List String)}

theorem symbolsOf_succeeds (h : d.Lists c) (names : List String) :
    SucceedsIff (symbolsOf d names) (∀ name ∈ names, name ∈ c.nonterminals ++ c.terminals)
      fun body => d.Spells body names := by
  induction names with
  | nil => exact ⟨by simp, rfl, by simp⟩
  | cons name names ih =>
      rw [symbolsOf]
      cases hname : d.symbol? name with
      | none =>
          intro hall
          obtain ⟨s, hs⟩ := h.mem_names_iff.mp (hall name List.mem_cons_self)
          rw [hname] at hs
          cases hs
      | some s =>
          obtain ⟨hallowed, hs⟩ := h.wellFormed.symbol?_eq_some_iff.mp hname
          cases hbody : symbolsOf d names with
          | error e =>
              rw [hbody] at ih
              intro hall
              exact ih fun w hw => hall w (List.mem_cons_of_mem name hw)
          | ok body =>
              rw [hbody] at ih
              obtain ⟨hall, hnames, hbody⟩ := ih
              refine ⟨?_, ?_, ?_⟩
              · rintro w (_ | ⟨_, hw⟩)
                · exact h.mem_names_iff.mpr ⟨s, hname⟩
                · exact hall w hw
              · rw [List.map_cons, hs, hnames]
              · rintro s' (_ | ⟨_, hs'⟩)
                · exact hallowed
                · exact hbody s' hs'

theorem alternative_succeeds (h : d.Lists c) (head : String) (text : List Char) :
    SucceedsIff (alternative d head text) (c.IsAlternative (wordsOf text))
      fun body => d.Spells body (Content.spelled (wordsOf text)) := by
  have hsymbols := symbolsOf_succeeds h (Content.spelled (wordsOf text))
  have hwords : (Text.words text).map String.ofList = wordsOf text := rfl
  have hspelled : (wordsOf text).filter (!isEpsilon ·) = Content.spelled (wordsOf text) := rfl
  rw [alternative, hwords, hspelled]
  generalize wordsOf text = words at hsymbols ⊢
  cases hbody : symbolsOf d (Content.spelled words) with
  | error fault =>
      rw [hbody] at hsymbols
      rintro ⟨-, hdeclared | hepsilon⟩
      · exact hsymbols fun w hw => hdeclared w (List.mem_of_mem_filter hw)
      · rw [Content.spelled_eq_nil_iff.mpr hepsilon] at hsymbols
        exact hsymbols (by simp)
  | ok body =>
      rw [hbody] at hsymbols
      obtain ⟨hdeclared, hspells⟩ := hsymbols
      have hempty : body = [] ↔ Content.spelled words = [] := by
        rw [← hspells.1, List.map_eq_nil_iff]
      dsimp only
      by_cases hwords : words = []
      · rw [if_pos (List.isEmpty_iff.mpr hwords)]
        exact fun hgood => hgood.1 hwords
      · rw [if_neg (List.isEmpty_iff.not.mpr hwords)]
        by_cases hmixed : body ≠ [] ∧ ∃ w ∈ words, isEpsilon w = true
        · rw [if_pos (by simpa using hmixed)]
          obtain ⟨hbody, w, hw, hepsilon⟩ := hmixed
          rintro ⟨-, hall | hall⟩
          · have hnot := isEpsilon_of_isValidName (h.loadable.1.names w (hall w hw))
            rw [hepsilon] at hnot
            cases hnot
          · exact hbody (hempty.mpr (Content.spelled_eq_nil_iff.mpr hall))
        · rw [if_neg (by simpa using hmixed)]
          refine ⟨⟨hwords, ?_⟩, hspells⟩
          by_cases hbody : body = []
          · exact .inr (Content.spelled_eq_nil_iff.mp (hempty.mp hbody))
          · left
            intro w hw
            have hnot : isEpsilon w = false := by
              rw [← Bool.not_eq_true]
              exact fun hepsilon => hmixed ⟨hbody, w, hw, hepsilon⟩
            exact hdeclared w (List.mem_filter.mpr ⟨hw, by simp [hnot]⟩)

/-! ## Rules -/

theorem Lists.rules_concat (h : d.Lists ⟨N, T, A⟩) (name : String) (words : List String) :
    Content.rules ⟨N, T, A ++ [(name, words)]⟩ =
      if (name, Content.spelled words) ∈ d.namedRules then d.namedRules
      else d.namedRules ++ [(name, Content.spelled words)] := by
  have hmem : ∀ p, p ∈ d.namedRules ↔ p ∈ A.map fun p => (p.1, Content.spelled p.2) := by
    intro p
    rw [h.rules, Content.rules, List.mem_eraseDups]
  rw [Content.rules, List.map_append, List.map_singleton, Content.eraseDups_concat, h.rules]
  simp only [← hmem, h.rules]
  rfl

theorem Lists.isLoadable_alternative (h : d.Lists ⟨N, T, A⟩) {name : String} {words : List String}
    (hname : name ∈ N) (hwords : Content.IsAlternative ⟨N, T, A⟩ words) :
    Content.IsLoadable ⟨N, T, A ++ [(name, words)]⟩ ↔
      (name, Content.spelled words) ∈ d.namedRules ∨ d.nextRule < idLimit := by
  obtain ⟨hvalid, hroom⟩ := h.loadable
  have hlength : d.nextRule = d.namedRules.length := by rw [h.nextRule, h.rules]
  have hold : d.namedRules.length ≤ idLimit := by
    rw [h.rules]
    exact hroom.rules
  have hiff : (Content.rules ⟨N, T, A ++ [(name, words)]⟩).length ≤ idLimit ↔
      (name, Content.spelled words) ∈ d.namedRules ∨ d.nextRule < idLimit := by
    rw [h.rules_concat, hlength]
    split_ifs with hmem
    · simp [hmem, hold]
    · rw [List.length_append, List.length_singleton, Nat.succ_le_iff]
      simp [hmem]
  rw [← hiff]
  constructor
  · exact fun hload => hload.2.rules
  · intro hrules
    refine ⟨⟨hvalid.names, hvalid.distinct, ?_, ?_⟩, hroom.nonterminals, hroom.terminals, hrules⟩
    · intro p hp
      rcases List.mem_append.mp hp with hp | hp
      · exact hvalid.heads p hp
      · rw [List.mem_singleton.mp hp]
        exact hname
    · intro p hp
      rcases List.mem_append.mp hp with hp | hp
      · exact hvalid.bodies p hp
      · rw [List.mem_singleton.mp hp]
        exact hwords

theorem Lists.addRule (h : d.Lists ⟨N, T, A⟩) {name : String} {words : List String}
    {head : NonterminalId} {body : List Symbol} {r : RuleId}
    (hhead : d.symbol? name = some (.nonterminal head))
    (hbody : d.Spells body (Content.spelled words)) (hd : d.addRule head body = .ok (r, d'))
    (hload : Content.IsLoadable ⟨N, T, A ++ [(name, words)]⟩) :
    d'.Lists ⟨N, T, A ++ [(name, words)]⟩ := by
  have hwf := h.wellFormed.addRule hd
  have hmem := h.wellFormed.mem_namedRules_iff hhead hbody
  have hrules := h.rules_concat name words
  obtain ⟨-, -, ⟨⟨x, hx, -, hxhead, hxbody⟩, rfl⟩ | ⟨hnew, -, rfl⟩⟩ := addRule_eq_ok hd
  · have hold : Content.rules ⟨N, T, A ++ [(name, words)]⟩ = d'.namedRules := by
      rw [hrules, if_pos (hmem.mpr ⟨x, hx, hxhead, hxbody⟩)]
    refine { h with loadable := hload, rules := hold.symm, nextRule := ?_ }
    rw [hold, h.rules]
    exact h.nextRule
  · have hfresh : (name, Content.spelled words) ∉ d.namedRules := by
      rw [hmem]
      rintro ⟨x, hx, hxrule⟩
      exact hnew x hx hxrule
    rw [if_neg hfresh] at hrules
    obtain ⟨-, hname⟩ := h.wellFormed.symbol?_eq_some_iff.mp hhead
    refine { h with
      wellFormed := hwf, loadable := hload, rules := ?_, nextRule := ?_ }
    · rw [hrules]
      show List.map _ (OrderedMap.values _) = _
      rw [h.wellFormed.rules.values_insert ⟨d.nextRule, head, body⟩, List.map_append,
        List.map_singleton]
      show d.namedRules ++ [(d.symbolName (.nonterminal head), body.map d.symbolName)] = _
      rw [hname, hbody.1]
    · show d.nextRule + 1 = _
      rw [hrules, h.nextRule, List.length_append, h.rules]
      rfl

theorem addRule_succeeds (h : d.Lists ⟨N, T, A⟩) {name : String} {words : List String}
    {head : NonterminalId} {body : List Symbol}
    (hhead : d.symbol? name = some (.nonterminal head))
    (hbody : d.Spells body (Content.spelled words))
    (hwords : Content.IsAlternative ⟨N, T, A⟩ words) :
    SucceedsIff (d.addRule head body) (Content.IsLoadable ⟨N, T, A ++ [(name, words)]⟩)
      fun p => p.2.Lists ⟨N, T, A ++ [(name, words)]⟩ := by
  have hname : name ∈ N := h.mem_nonterminals_iff.mpr ⟨head, hhead⟩
  have hallowed := (h.wellFormed.symbol?_eq_some_iff.mp hhead).1
  have hiff : (∃ p, d.addRule head body = .ok p) ↔
      Content.IsLoadable ⟨N, T, A ++ [(name, words)]⟩ := by
    rw [addRule_isOk_iff hallowed hbody.2, h.isLoadable_alternative hname hwords,
      h.wellFormed.mem_namedRules_iff hhead hbody]
  apply SucceedsIff.of_iff hiff
  intro p hp
  exact h.addRule hhead hbody hp (hiff.mp ⟨p, hp⟩)

/-- A rule declares no symbol. -/
theorem symbol?_addRule {head : NonterminalId} {body : List Symbol} {r : RuleId}
    (hd : d.addRule head body = .ok (r, d')) (name : String) :
    d'.symbol? name = d.symbol? name := by
  obtain ⟨-, -, ⟨-, rfl⟩ | ⟨-, -, rfl⟩⟩ := addRule_eq_ok hd
  · rfl
  · rfl

theorem addAlternatives_succeeds (h : d.Lists ⟨N, T, A⟩) {name : String} {head : NonterminalId}
    (hhead : d.symbol? name = some (.nonterminal head)) (texts : List (List Char)) :
    SucceedsIff (addAlternatives d name head texts)
      (Content.IsLoadable ⟨N, T, A ++ texts.map fun text => (name, wordsOf text)⟩)
      fun d' => d'.Lists ⟨N, T, A ++ texts.map fun text => (name, wordsOf text)⟩ := by
  induction texts generalizing d A with
  | nil =>
      rw [List.map_nil, List.append_nil]
      exact ⟨h.loadable, h⟩
  | cons text texts ih =>
      rw [addAlternatives, List.map_cons, List.append_cons]
      have halternative := alternative_succeeds h name text
      cases hbody : alternative d name text with
      | error fault =>
          rw [hbody] at halternative
          intro hload
          exact halternative (hload.1.bodies (name, wordsOf text) (by simp))
      | ok body =>
          rw [hbody] at halternative
          obtain ⟨hwords, hspells⟩ := halternative
          have hrule := addRule_succeeds h hhead hspells hwords
          dsimp only
          cases hd : d.addRule head body with
          | error e =>
              rw [hd] at hrule
              intro hload
              exact hrule hload.of_append_alternatives
          | ok p =>
              rw [hd] at hrule
              obtain ⟨r, d'⟩ := p
              apply ih hrule.2
              rw [symbol?_addRule hd, hhead]

theorem addRuleLine_succeeds (h : d.Lists ⟨N, T, A⟩) (text : List Char) :
    SucceedsIff (addRuleLine d text)
      (∃ line, RuleLine text line ∧ Content.IsLoadable ⟨N, T, A ++ line⟩)
      fun d' => ∀ line, RuleLine text line → d'.Lists ⟨N, T, A ++ line⟩ := by
  unfold addRuleLine ruleLine
  cases hcut : Text.splitArrow text with
  | none =>
      rintro ⟨line, hline, -⟩
      obtain ⟨before, after, hsome, -⟩ := ruleLine_iff.mp hline
      rw [hcut] at hsome
      cases hsome
  | some p =>
      obtain ⟨before, after⟩ := p
      have hline : ∀ line, RuleLine text line ↔
          line = alternativesOf (String.ofList (Text.trim before)) after := by
        intro line
        rw [ruleLine_iff, hcut]
        simp
      simp only [hline, exists_eq_left, forall_eq]
      generalize String.ofList (Text.trim before) = name
      have hhead : Content.IsLoadable ⟨N, T, A ++ alternativesOf name after⟩ →
          ∃ n, d.symbol? name = some (.nonterminal n) := by
        intro hload
        obtain ⟨words, hwords⟩ := exists_mem_alternativesOf name after
        exact h.mem_nonterminals_iff.mp
          (hload.1.heads (name, words) (List.mem_append_right A hwords))
      cases hname : d.symbol? name with
      | none =>
          intro hload
          obtain ⟨n, hn⟩ := hhead hload
          rw [hname] at hn
          cases hn
      | some s =>
          cases s with
          | terminal t =>
              intro hload
              obtain ⟨n, hn⟩ := hhead hload
              rw [hname] at hn
              cases hn
          | nonterminal head => exact addAlternatives_succeeds h hname (Text.splitOn '|' after)

theorem addRuleLines_succeeds (h : d.Lists ⟨N, T, A⟩) (lines : List SourceLine) :
    SucceedsIff (addRuleLines d lines)
      (∃ A', List.Forall₂ RuleLine (lines.map (·.text)) A' ∧
        Content.IsLoadable ⟨N, T, A ++ A'.flatten⟩)
      fun d' => ∀ A', List.Forall₂ RuleLine (lines.map (·.text)) A' →
        d'.Lists ⟨N, T, A ++ A'.flatten⟩ := by
  induction lines generalizing d A with
  | nil =>
      simp only [List.map_nil, List.forall₂_nil_left_iff, exists_eq_left, forall_eq,
        List.flatten_nil, List.append_nil]
      exact ⟨h.loadable, h⟩
  | cons line lines ih =>
      have hline := addRuleLine_succeeds h line.text
      rw [addRuleLines, List.map_cons]
      cases hd : addRuleLine d line.text with
      | error fault =>
          rw [hd] at hline
          rintro ⟨A', hA', hload⟩
          obtain ⟨l, A', hl, -, rfl⟩ := List.forall₂_cons_left_iff.mp hA'
          rw [List.flatten_cons, ← List.append_assoc] at hload
          exact hline ⟨l, hl, hload.of_append_alternatives⟩
      | ok d' =>
          rw [hd] at hline
          obtain ⟨⟨l, hl, -⟩, hlists⟩ := hline
          -- the rest is read after this reading of the line, which is the only one
          have hcons : ∀ A', List.Forall₂ RuleLine (line.text :: lines.map (·.text)) A' ↔
              ∃ A'', List.Forall₂ RuleLine (lines.map (·.text)) A'' ∧ A' = l :: A'' := by
            intro A'
            rw [List.forall₂_cons_left_iff]
            constructor
            · rintro ⟨l', A'', hl', hrest, rfl⟩
              exact ⟨A'', hrest, by rw [hl.unique hl']⟩
            · rintro ⟨A'', hrest, rfl⟩
              exact ⟨l, A'', hl, hrest, rfl⟩
          apply (ih (hlists l hl)).imp
          · simp only [hcons]
            constructor
            · rintro ⟨A'', hrest, hload⟩
              rw [List.append_assoc, ← List.flatten_cons] at hload
              exact ⟨_, ⟨A'', hrest, rfl⟩, hload⟩
            · rintro ⟨A', ⟨A'', hrest, rfl⟩, hload⟩
              rw [List.flatten_cons, ← List.append_assoc] at hload
              exact ⟨A'', hrest, hload⟩
          · intro d'' hd'' A' hA'
            obtain ⟨A'', hrest, rfl⟩ := (hcons A').mp hA'
            rw [List.flatten_cons, ← List.append_assoc]
            exact hd'' A'' hrest

end Draft

end ShiftReduce
