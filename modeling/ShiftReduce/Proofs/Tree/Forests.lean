import Mathlib.Data.List.Forall2
import Mathlib.Data.List.Nodup
import ShiftReduce.Grammar.WellFormed
import ShiftReduce.Proofs.Grammar.Yields
import ShiftReduce.Tree.Derivation

/-! # Trees and derivations

- `Tree.enumerates_iff`: an enumeration of the leaves gives each of them.
- `Grammar.SpelledBy`: tokens whose names are those of some terminals.
- `Tree.Derives.yields`: the leaves of a tree spell a string that its root
  derives.
- `exists_forest`: tokens that spell a string are the leaves of a forest for
  whatever derives the string; `exists_isParse`: those that spell a sentence have a
  derivation tree.
-/

namespace ShiftReduce

variable {g : Grammar} {τ : Type}

theorem Tree.forestLeaves_append : ∀ ts us : List (Tree τ),
    forestLeaves (ts ++ us) = forestLeaves ts ++ forestLeaves us
  | [], _ => rfl
  | t :: ts, us => by
      rw [List.cons_append, forestLeaves, forestLeaves, forestLeaves_append ts us,
        List.append_assoc]

/-! ## Enumerating leaves -/

mutual

theorem Tree.Enumerates.tree {stack : List (Tree τ)} {as : List τ} (h : Enumerates stack as) :
    (t : Tree τ) → Enumerates (t :: stack) (t.leaves ++ as)
  | .leaf _ => .leaf h
  | .node _ ts => .node (h.forest ts)

theorem Tree.Enumerates.forest {stack : List (Tree τ)} {as : List τ} (h : Enumerates stack as) :
    (ts : List (Tree τ)) → Enumerates (ts ++ stack) (forestLeaves ts ++ as)
  | [] => h
  | t :: ts => by
      rw [List.cons_append, forestLeaves, List.append_assoc]
      exact (h.forest ts).tree t

end

/-- Every stack of trees is enumerated to the end, and gives the leaves of its trees. -/
theorem Tree.enumerates_iff {stack : List (Tree τ)} {as : List τ} :
    Enumerates stack as ↔ as = forestLeaves stack := by
  constructor
  · intro h
    induction h with
    | done => rfl
    | leaf _ ih => rw [ih, forestLeaves, leaves, List.singleton_append]
    | node _ ih => rw [ih, forestLeaves_append, forestLeaves, leaves]
  · rintro rfl
    have h : Enumerates (stack ++ []) (forestLeaves stack ++ []) := Enumerates.done.forest stack
    rwa [List.append_nil, List.append_nil] at h

variable [Token τ]

/-! ## Names of terminals -/

namespace Grammar

/-- The names of the tokens are those of the terminals, one after the other. -/
def SpelledBy (g : Grammar) (v : List TerminalId) (w : List τ) : Prop :=
  List.Forall₂ (fun x t => g.Names t (Token.name x)) w v

theorem Names.ne_endOfInput {t : TerminalId} {name : String} (h : g.Names t name) :
    t ≠ endOfInput := by
  obtain ⟨-, -, -, -, hne⟩ := h
  exact hne

theorem Names.unique (hg : g.WellFormed) {t u : TerminalId} {name : String}
    (ht : g.Names t name) (hu : g.Names u name) : t = u := by
  obtain ⟨x, hx, rfl, hxn, -⟩ := ht
  obtain ⟨y, hy, rfl, hyn, -⟩ := hu
  have hnames := (List.nodup_append.mp hg.names).1
  rw [List.inj_on_of_nodup_map hnames hx hy (hxn.trans hyn.symm)]

end Grammar

/-! ## Forests -/

theorem reverse_eq_drop_take {α : Type} (n : Nat) (xs : List α) :
    xs.reverse = (xs.drop n).reverse ++ (xs.take n).reverse := by
  rw [← List.reverse_append, List.take_append_drop]

namespace Forest.Derives

theorem append {ss ss' : List Symbol} {ts ts' : List (Tree τ)} (h : Forest.Derives g ss ts)
    (h' : Forest.Derives g ss' ts') : Forest.Derives g (ss ++ ss') (ts ++ ts') := by
  induction ss generalizing ts with
  | nil =>
      cases h
      exact h'
  | cons s ss ih =>
      cases h with
      | cons first rest => exact .cons first (ih rest)

theorem split {ss ss' : List Symbol} {ts : List (Tree τ)}
    (h : Forest.Derives g (ss ++ ss') ts) :
    Forest.Derives g ss (ts.take ss.length) ∧ Forest.Derives g ss' (ts.drop ss.length) := by
  induction ss generalizing ts with
  | nil => exact ⟨.nil, h⟩
  | cons s ss ih =>
      cases h with
      | cons first rest => exact ⟨.cons first (ih rest).1, (ih rest).2⟩

theorem length_eq {ss : List Symbol} {ts : List (Tree τ)} (h : Forest.Derives g ss ts) :
    ts.length = ss.length := by
  induction ss generalizing ts with
  | nil =>
      cases h
      rfl
  | cons s ss ih =>
      cases h with
      | cons _ rest => exact congrArg Nat.succ (ih rest)

/-- Told from the end, the symbols and the trees are cut at the same place. -/
theorem split_reverse {ss : List Symbol} {ts : List (Tree τ)}
    (h : Forest.Derives g ss.reverse ts.reverse) (n : Nat) :
    Forest.Derives g (ss.drop n).reverse (ts.drop n).reverse ∧
      Forest.Derives g (ss.take n).reverse (ts.take n).reverse := by
  have hlen := h.length_eq
  rw [List.length_reverse, List.length_reverse] at hlen
  have hcut : (ss.drop n).reverse.length = (ts.drop n).reverse.length := by
    rw [List.length_reverse, List.length_reverse, List.length_drop, List.length_drop, hlen]
  rw [reverse_eq_drop_take n ss, reverse_eq_drop_take n ts] at h
  obtain ⟨hlower, hupper⟩ := h.split
  rw [hcut, List.take_left] at hlower
  rw [hcut, List.drop_left] at hupper
  exact ⟨hlower, hupper⟩

end Forest.Derives

/-! ## What the leaves spell -/

mutual

theorem Tree.Derives.yields : ∀ {s : Symbol} {t : Tree τ}, Tree.Derives g s t →
    ∃ v, g.Yields [s] (terminalSymbols v) ∧ g.SpelledBy v t.leaves
  | _, _, .leaf h => ⟨[_], .refl _, List.Forall₂.cons h .nil⟩
  | _, _, .node rule children => by
      obtain ⟨v, hv, hspelled⟩ := children.yields
      refine ⟨v, ?_, hspelled⟩
      have h := Grammar.Yields.replace rule hv .nil
      rwa [List.append_nil] at h

theorem Forest.Derives.yields : ∀ {ss : List Symbol} {ts : List (Tree τ)},
    Forest.Derives g ss ts →
      ∃ v, g.Yields ss (terminalSymbols v) ∧ g.SpelledBy v (Tree.forestLeaves ts)
  | _, _, .nil => ⟨[], .nil, List.Forall₂.nil⟩
  | _, _, .cons first rest => by
      obtain ⟨v, hv, hspelled⟩ := first.yields
      obtain ⟨v', hv', hspelled'⟩ := rest.yields
      refine ⟨v ++ v', ?_, List.rel_append hspelled hspelled'⟩
      rw [terminalSymbols, List.map_append]
      exact hv.append hv'

end

theorem exists_forest {ss us : List Symbol} (h : g.Yields ss us) {v : List TerminalId}
    (hv : us = terminalSymbols v) {w : List τ} (hw : g.SpelledBy v w) :
    ∃ ts, Forest.Derives g ss ts ∧ Tree.forestLeaves ts = w := by
  induction h generalizing v w with
  | nil =>
      cases List.map_eq_nil_iff.mp hv.symm
      cases hw
      exact ⟨[], .nil, rfl⟩
  | keep s _ ih =>
      obtain ⟨t, v', rfl, rfl, hv'⟩ := List.map_eq_cons_iff.mp hv.symm
      cases hw with
      | @cons x _ xs _ hx hrest =>
          obtain ⟨ts, hts, hleaves⟩ := ih hv'.symm hrest
          refine ⟨.leaf x :: ts, .cons (.leaf hx) hts, ?_⟩
          rw [Tree.forestLeaves, Tree.leaves, hleaves]
          rfl
  | @replace n body us vs ws rule _ _ ihInner ihRest =>
      obtain ⟨v1, v2, rfl, h1, h2⟩ := List.map_eq_append_iff.mp hv.symm
      have hsplit : g.SpelledBy v1 (w.take v1.length) ∧ g.SpelledBy v2 (w.drop v1.length) :=
        ⟨List.forall₂_take_append w v1 v2 hw, List.forall₂_drop_append w v1 v2 hw⟩
      obtain ⟨ts, hts, hleaves⟩ := ihInner h1.symm hsplit.1
      obtain ⟨us, hus, hleaves'⟩ := ihRest h2.symm hsplit.2
      refine ⟨.node (g.nonterminalName n) ts :: us, .cons (.node rule hts) hus, ?_⟩
      rw [Tree.forestLeaves, Tree.leaves, hleaves, hleaves', List.take_append_drop]

/-- Whatever spells a sentence is the input of a derivation tree. -/
theorem exists_isParse {v : List TerminalId} (hv : g.IsSentence v) {w : List τ}
    (hw : g.SpelledBy v w) : ∃ T, Tree.IsParse g w T := by
  obtain ⟨ts, hforest, hleaves⟩ := exists_forest (Grammar.derives_iff_yields.mp hv) rfl hw
  cases hforest with
  | @cons _ _ T _ first others =>
      cases others
      rw [Tree.forestLeaves, Tree.forestLeaves, List.append_nil] at hleaves
      exact ⟨T, first, hleaves⟩

end ShiftReduce
