import ShiftReduce.Proofs.Tree.Forests

/-! # Grammars without useless nonterminals

- `Grammar.AllProductive`: every nonterminal derives some string of terminals.
- `AllProductive.derives`: then so does every string of symbols.
- `Grammar.BeginsSentence`: tokens that some sentence begins with.
-/

namespace ShiftReduce

namespace Grammar

variable {g : Grammar}

/-! ## Names of declared terminals -/

theorem names_terminalName (hg : g.WellFormed) {t : TerminalId} (h : g.Allows (.terminal t)) :
    g.Names t (g.terminalName t) := by
  obtain ⟨hne, hmem⟩ := h
  obtain ⟨x, hx⟩ := OrderedMap.mem_keys.mp hmem
  have hid : t = x.id := hg.terminal_id _ hx
  rw [terminalName, OrderedMap.find?_of_mem_entries hg.terminal_keys hx]
  exact ⟨x, OrderedMap.mem_values.mpr ⟨t, hx⟩, hid.symm, rfl, hne⟩

/-- The names of terminals, taken as tokens, spell them. -/
theorem spelledBy_terminalName (hg : g.WellFormed) {v : List TerminalId}
    (h : ∀ s ∈ terminalSymbols v, g.Allows s) : g.SpelledBy v (v.map g.terminalName) := by
  induction v with
  | nil => exact List.Forall₂.nil
  | cons t v ih =>
      have hname := names_terminalName hg (h _ List.mem_cons_self)
      have hrest := ih fun s hs => h s (List.mem_cons_of_mem _ hs)
      exact List.Forall₂.cons hname hrest

/-! ## Productive nonterminals -/

def AllProductive (g : Grammar) : Prop := ∀ n ∈ g.nonterminals.keys, g.IsProductive n

theorem AllProductive.derives (h : g.AllProductive) {ss : List Symbol}
    (hss : ∀ s ∈ ss, g.Allows s) : ∃ v, g.Derives ss (terminalSymbols v) := by
  induction ss with
  | nil => exact ⟨[], .refl⟩
  | cons s ss ih =>
      obtain ⟨v', hv'⟩ := ih fun s' hs' => hss s' (List.mem_cons_of_mem s hs')
      have hs : ∃ v, g.Derives [s] (terminalSymbols v) := by
        cases s with
        | terminal t => exact ⟨[t], .refl⟩
        | nonterminal n => exact h n (hss _ List.mem_cons_self)
      obtain ⟨v, hv⟩ := hs
      refine ⟨v ++ v', ?_⟩
      rw [terminalSymbols, List.map_append]
      exact Derives.append (u := [s]) hv hv'

/-- If all are productive and none derives itself, one that derives itself behind vanishing
symbols comes to a terminal: what stands after it cannot vanish as well. -/
theorem AllProductive.exists_first (hg : g.WellFormed) (h : g.AllProductive)
    (hacyclic : g.IsAcyclic) {n : NonterminalId}
    (hrec : g.IsHiddenLeftRecursive n) :
    ∃ t after, g.Derives [.nonterminal n] (.terminal t :: after) := by
  obtain ⟨before, after, -, hnull, hd⟩ := hrec
  have hn := hd.declared hg
  have hallows := Derives.allows_of_declared hg hn hd.to_reflTransGen
  obtain ⟨u, hu⟩ := h n hn
  obtain ⟨v, hv⟩ := h.derives fun s hs =>
    hallows s (List.mem_append_right before (List.mem_cons_of_mem _ hs))
  have hself : g.Derives [.nonterminal n] [.nonterminal n] := .refl
  have hlong : g.DerivesProperly [.nonterminal n] (.nonterminal n :: terminalSymbols v) :=
    hd.trans_left (hnull.append (hself.append hv))
  cases v with
  | nil => exact absurd hlong (hacyclic n)
  | cons t v =>
      cases u with
      | nil => exact ⟨t, _, Relation.ReflTransGen.trans hlong.to_reflTransGen (hu.append .refl)⟩
      | cons t' u => exact ⟨t', _, hu⟩

def isTerminal : Symbol → Bool
  | .terminal _ => true
  | .nonterminal _ => false

theorem exists_terminalSymbols {ss : List Symbol} (h : ss.all isTerminal = true) :
    ∃ v, ss = terminalSymbols v := by
  induction ss with
  | nil => exact ⟨[], rfl⟩
  | cons s ss ih =>
      rw [List.all_cons, Bool.and_eq_true] at h
      obtain ⟨v, rfl⟩ := ih h.2
      cases s with
      | terminal t => exact ⟨t :: v, rfl⟩
      | nonterminal n => cases h.1

/-- It is enough that each nonterminal has a rule without nonterminals. -/
theorem allProductive_of_terminal_rules
    (h : (g.nonterminals.keys.all fun n => (g.rulesOf n).any fun r => r.body.all isTerminal) =
      true) : g.AllProductive := by
  intro n hn
  obtain ⟨r, hr, hbody⟩ := List.any_eq_true.mp (List.all_eq_true.mp h n hn)
  obtain ⟨hmem, hhead⟩ := List.mem_filter.mp hr
  obtain ⟨v, hv⟩ := exists_terminalSymbols hbody
  exact ⟨v, Produces.derives ⟨r, hmem, of_decide_eq_true hhead, hv⟩⟩

/-! ## Beginnings of sentences -/

variable {τ : Type} [Token τ]

/-- The tokens spell the beginning of some sentence. -/
def BeginsSentence (g : Grammar) (w : List τ) : Prop :=
  ∃ v v', g.IsSentence (v ++ v') ∧ g.SpelledBy v w

/-- The tokens spell a sentence. -/
def SpellsSentence (g : Grammar) (w : List τ) : Prop :=
  ∃ v, g.IsSentence v ∧ g.SpelledBy v w

/-- Tokens that begin a sentence have the names of the first leaves of some derivation tree. -/
theorem BeginsSentence.exists_isParse (hg : g.WellFormed) {w : List τ} (h : g.BeginsSentence w) :
    ∃ (rest : List String) (T : Tree String), T.IsParse g (w.map Token.name ++ rest) := by
  obtain ⟨v, v', hv, hspelled⟩ := h
  have hnames : g.SpelledBy v (w.map Token.name) := by
    rw [SpelledBy, List.forall₂_map_left_iff]
    exact hspelled
  have hrest : g.SpelledBy v' (v'.map g.terminalName) := by
    apply spelledBy_terminalName hg
    intro s hs
    have hs' : s ∈ terminalSymbols (v ++ v') := by
      rw [terminalSymbols, List.map_append]
      exact List.mem_append_right _ hs
    exact Derives.allows_of_declared hg hg.start hv s hs'
  exact ⟨_, ShiftReduce.exists_isParse hv (List.rel_append hnames hrest)⟩

/-- The leaves of a forest begin a sentence if its labels begin what the start symbol
derives. -/
theorem AllProductive.beginsSentence (hg : g.WellFormed) (h : g.AllProductive)
    {ss after : List Symbol} {ts : List (Tree τ)} (hforest : Forest.Derives g ss ts)
    (hd : g.Derives [.nonterminal g.start] (ss ++ after)) :
    g.BeginsSentence (Tree.forestLeaves ts) := by
  obtain ⟨v, hv, hspelled⟩ := hforest.yields
  have hallows := hd.allows_of_declared hg hg.start
  obtain ⟨v', hv'⟩ := h.derives fun s hs => hallows s (List.mem_append_right ss hs)
  refine ⟨v, v', ?_, hspelled⟩
  rw [IsSentence, terminalSymbols, List.map_append]
  exact hd.trans (hv.derives.append hv')

end Grammar

end ShiftReduce
