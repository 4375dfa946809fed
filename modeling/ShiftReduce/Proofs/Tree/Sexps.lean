import ShiftReduce.Proofs.Text.Joined
import ShiftReduce.Tree.Outline

/-! # Trees on one line

- `Tree.IsBare`: labels without brackets and commas, which can be told from what comes after them.
- `Tree.named_eq_of_sexp`: a text begins with one tree at most.
- `Tree.sexp_eq_iff`: the text of a tree tells the names in it.
-/

namespace ShiftReduce

namespace Tree

/-! ## Labels -/

/-- The characters between labels. -/
def isBracket (c : Char) : Bool := c = '(' || c = ')' || c = ','

/-- A label that is not empty and holds none of the characters between labels. -/
structure IsBare (s : String) : Prop where
  ne_empty : s ≠ ""
  not_bracket : ∀ c ∈ s.toList, isBracket c = false

instance (s : String) : Decidable (IsBare s) :=
  decidable_of_iff (s ≠ "" ∧ s.toList.all (!isBracket ·) = true)
    ⟨fun ⟨hne, hall⟩ => ⟨hne, by simpa using hall⟩,
      fun h => ⟨h.ne_empty, by simpa using h.not_bracket⟩⟩

/-- Labels are told apart from what comes after them. -/
theorem IsBare.append_inj {s s' : String} (hs : IsBare s) (hs' : IsBare s') {cs cs' : List Char}
    (hcs : ∀ c ∈ cs.head?, isBracket c = true) (hcs' : ∀ c ∈ cs'.head?, isBracket c = true)
    (h : s.toList ++ cs = s'.toList ++ cs') : s = s' ∧ cs = cs' := by
  obtain ⟨hlabel, hrest⟩ := Text.append_inj_of_forall hs.not_bracket hs'.not_bracket
    (fun c hc => by simp [hcs c hc]) (fun c hc => by simp [hcs' c hc]) h
  exact ⟨String.toList_inj.mp hlabel, hrest⟩

/-! ## Texts of trees -/

variable {τ υ : Type} [Token τ] [Token υ]

/-- What comes after a tree: the next one in its row, the end of the row, or nothing. -/
def EndsTree (cs : List Char) : Prop := ∀ c ∈ cs.head?, c = ',' ∨ c = ')'

/-- The rest of a row, and its end. -/
def rowRest (ts : List (Tree τ)) (cs : List Char) : List Char :=
  (forestSexps ts).flatMap (fun text => [',', ' '] ++ text.toList) ++ ')' :: cs

/-- A row, and its end. -/
def row : List (Tree τ) → List Char → List Char
  | [], cs => ')' :: cs
  | t :: ts, cs => t.sexp.toList ++ rowRest ts cs

/-- What comes after the label of a tree. -/
def afterSymbol : Tree τ → List Char → List Char
  | .leaf _, cs => cs
  | .node _ ts, cs => '(' :: row ts cs

theorem toList_sexp (t : Tree τ) (cs : List Char) :
    t.sexp.toList ++ cs = t.symbol.toList ++ t.afterSymbol cs := by
  cases t with
  | leaf a => rfl
  | node s ts =>
      have hrow : ", ".toList.intercalate ((forestSexps ts).map String.toList) ++ ')' :: cs =
          row ts cs := by
        cases ts with
        | nil => rfl
        | cons t ts =>
            rw [forestSexps, List.map_cons, Text.intercalate_cons, List.flatMap_map,
              List.append_assoc]
            rfl
      rw [sexp, String.toList_append, String.toList_append, String.toList_append,
        String.toList_intercalate, List.append_assoc, List.append_assoc, List.append_assoc]
      exact congrArg (fun text => s.toList ++ '(' :: text) hrow

theorem rowRest_cons (t : Tree τ) (ts : List (Tree τ)) (cs : List Char) :
    rowRest (t :: ts) cs = ',' :: ' ' :: (t.sexp.toList ++ rowRest ts cs) := by
  simp [rowRest, forestSexps]

theorem endsTree_rowRest (ts : List (Tree τ)) (cs : List Char) : EndsTree (rowRest ts cs) := by
  intro c hc
  cases ts with
  | nil =>
      cases hc
      exact .inr rfl
  | cons t ts =>
      rw [rowRest_cons] at hc
      cases hc
      exact .inl rfl

theorem symbol_mem_labels (t : Tree τ) : t.symbol ∈ t.labels := by
  cases t <;> exact List.mem_cons_self

theorem isBracket_head?_afterSymbol (t : Tree τ) {cs : List Char} (hcs : EndsTree cs) :
    ∀ c ∈ (t.afterSymbol cs).head?, isBracket c = true := by
  intro c hc
  cases t with
  | leaf a => rcases hcs c hc with rfl | rfl <;> rfl
  | node s ts =>
      cases hc
      rfl

/-- Where a text begins with two trees, they have one label. -/
theorem symbol_eq_of_sexp {t : Tree τ} {u : Tree υ} {cs ds : List Char}
    (ht : ∀ s ∈ t.labels, IsBare s) (hu : ∀ s ∈ u.labels, IsBare s) (hcs : EndsTree cs)
    (hds : EndsTree ds) (h : t.sexp.toList ++ cs = u.sexp.toList ++ ds) :
    t.symbol = u.symbol ∧ t.afterSymbol cs = u.afterSymbol ds := by
  rw [toList_sexp, toList_sexp] at h
  exact (ht _ t.symbol_mem_labels).append_inj (hu _ u.symbol_mem_labels)
    (t.isBracket_head?_afterSymbol hcs) (u.isBracket_head?_afterSymbol hds) h

/-- No tree begins with the end of a row. -/
theorem sexp_ne_rowEnd {t : Tree τ} (ht : ∀ s ∈ t.labels, IsBare s) (cs ds : List Char) :
    t.sexp.toList ++ cs ≠ ')' :: ds := by
  intro h
  have hbare := ht _ t.symbol_mem_labels
  rw [toList_sexp] at h
  cases hsymbol : t.symbol.toList with
  | nil => exact hbare.ne_empty (String.toList_eq_nil_iff.mp hsymbol)
  | cons c symbol =>
      rw [hsymbol] at h
      cases h
      have hfree := hbare.not_bracket ')' (by rw [hsymbol]; exact List.mem_cons_self)
      cases hfree

/-- Rows that are the same text are so behind other trees, too. -/
theorem rowRest_eq_of_row {ts : List (Tree τ)} {us : List (Tree υ)} {cs ds : List Char}
    (hts : ∀ s ∈ forestLabels ts, IsBare s) (hus : ∀ s ∈ forestLabels us, IsBare s)
    (h : row ts cs = row us ds) : rowRest ts cs = rowRest us ds := by
  cases ts with
  | nil =>
      cases us with
      | nil => exact h
      | cons u us =>
          exact absurd h.symm (sexp_ne_rowEnd (fun s hs => hus s (List.mem_append_left _ hs)) _ _)
  | cons t ts =>
      cases us with
      | nil => exact absurd h (sexp_ne_rowEnd (fun s hs => hts s (List.mem_append_left _ hs)) _ _)
      | cons u us =>
          rw [rowRest_cons, rowRest_cons]
          exact congrArg (',' :: ' ' :: ·) h

/-! ## Reading trees -/

mutual

theorem named_eq_of_sexp : ∀ (t : Tree τ) (u : Tree υ) {cs ds : List Char},
    (∀ s ∈ t.labels, IsBare s) → (∀ s ∈ u.labels, IsBare s) → EndsTree cs → EndsTree ds →
    t.sexp.toList ++ cs = u.sexp.toList ++ ds → t.named = u.named ∧ cs = ds
  | .leaf a, .leaf b, cs, ds, ht, hu, hcs, hds, h => by
      obtain ⟨hsymbol, hrest⟩ := symbol_eq_of_sexp ht hu hcs hds h
      exact ⟨congrArg Tree.leaf hsymbol, hrest⟩
  | .leaf a, .node s us, cs, ds, ht, hu, hcs, hds, h => by
      obtain ⟨-, hrest⟩ := symbol_eq_of_sexp ht hu hcs hds h
      have hopen := hcs '(' (by rw [show cs = '(' :: row us ds from hrest]; rfl)
      exact absurd hopen (by decide)
  | .node s ts, .leaf b, cs, ds, ht, hu, hcs, hds, h => by
      obtain ⟨-, hrest⟩ := symbol_eq_of_sexp ht hu hcs hds h
      have hopen := hds '(' (by rw [show ds = '(' :: row ts cs from hrest.symm]; rfl)
      exact absurd hopen (by decide)
  | .node s ts, .node r us, cs, ds, ht, hu, hcs, hds, h => by
      obtain ⟨hsymbol, hrest⟩ := symbol_eq_of_sexp ht hu hcs hds h
      have hs : s = r := hsymbol
      have hts := (List.forall_mem_cons.mp ht).2
      have hus := (List.forall_mem_cons.mp hu).2
      obtain ⟨hforest, rfl⟩ := named_eq_of_rowRest ts us hts hus
        (rowRest_eq_of_row hts hus (List.cons.inj hrest).2)
      rw [named, named, hs, hforest]
      exact ⟨rfl, rfl⟩

theorem named_eq_of_rowRest : ∀ (ts : List (Tree τ)) (us : List (Tree υ)) {cs ds : List Char},
    (∀ s ∈ forestLabels ts, IsBare s) → (∀ s ∈ forestLabels us, IsBare s) →
    rowRest ts cs = rowRest us ds → forestNamed ts = forestNamed us ∧ cs = ds
  | [], [], _, _, _, _, h => ⟨rfl, (List.cons.inj h).2⟩
  | [], u :: us, _, _, _, _, h => by
      rw [rowRest_cons] at h
      exact absurd (List.cons.inj h).1 (by decide)
  | t :: ts, [], _, _, _, _, h => by
      rw [rowRest_cons] at h
      exact absurd (List.cons.inj h).1 (by decide)
  | t :: ts, u :: us, cs, ds, hts, hus, h => by
      rw [rowRest_cons, rowRest_cons] at h
      rw [forestLabels, List.forall_mem_append] at hts hus
      obtain ⟨hfirst, hrest⟩ := named_eq_of_sexp t u hts.1 hus.1 (endsTree_rowRest ts cs)
        (endsTree_rowRest us ds) (List.cons.inj (List.cons.inj h).2).2
      obtain ⟨hothers, rfl⟩ := named_eq_of_rowRest ts us hts.2 hus.2 hrest
      rw [forestNamed, forestNamed, hfirst, hothers]
      exact ⟨rfl, rfl⟩

end

/-! ## Texts that stand alone -/

mutual

theorem sexp_named : ∀ t : Tree τ, t.named.sexp = t.sexp
  | .leaf _ => rfl
  | .node s ts => by rw [named, sexp, sexp, forestSexps_named ts]

theorem forestSexps_named : ∀ ts : List (Tree τ), forestSexps (forestNamed ts) = forestSexps ts
  | [] => rfl
  | t :: ts => by rw [forestNamed, forestSexps, forestSexps, sexp_named t, forestSexps_named ts]

end

theorem sexp_eq_iff {t : Tree τ} {u : Tree υ} (ht : ∀ s ∈ t.labels, IsBare s)
    (hu : ∀ s ∈ u.labels, IsBare s) : t.sexp = u.sexp ↔ t.named = u.named := by
  have hends : EndsTree [] := fun _ hc => nomatch hc
  constructor
  · intro h
    exact (named_eq_of_sexp t u ht hu hends hends (by rw [h])).1
  · intro h
    rw [← sexp_named t, h, sexp_named]

end Tree

end ShiftReduce
