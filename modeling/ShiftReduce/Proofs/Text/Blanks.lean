import Mathlib.Data.List.TakeWhile
import ShiftReduce.Proofs.Text.Joined

/-! # White space that makes no difference

- `IgnoresEnds`: what is made of a text does not depend on the white space at its ends. So it is
  with trimming, with words, and with what is made of the pieces between separators.
- `words_append_append`: the words of a text do not depend on how wide its gaps are.
- `exists_splitOn_append`: the pieces of two texts that are put together.
-/

namespace ShiftReduce.Text

variable {α : Type} {c sep : Char} {a b cs ws ws' : List Char}

/-! ## Trimmed texts -/

theorem AllBlank.append (h : AllBlank ws) (h' : AllBlank ws') : AllBlank (ws ++ ws') :=
  List.forall_mem_append.mpr ⟨h, h'⟩

theorem AllBlank.reverse (h : AllBlank ws) : AllBlank ws.reverse :=
  fun c hc => h c (List.mem_reverse.mp hc)

theorem AllBlank.not_mem (h : AllBlank ws) (hc : isBlank c = false) : c ∉ ws := by
  intro hmem
  rw [h c hmem] at hc
  cases hc

theorem AllBlank.trimStart_append (h : AllBlank ws) (cs : List Char) :
    trimStart (ws ++ cs) = trimStart cs := by
  rw [trimStart, List.dropWhile_append, List.dropWhile_eq_nil_iff.mpr h]
  rfl

theorem AllBlank.trim_append (h : AllBlank ws) (cs : List Char) : trim (ws ++ cs) = trim cs := by
  rw [trim, h.trimStart_append, trim]

theorem trimStart_append_of_ne_nil (hcs : trimStart cs ≠ []) (ws : List Char) :
    trimStart (cs ++ ws) = trimStart cs ++ ws := by
  rw [trimStart] at hcs ⊢
  rw [List.dropWhile_append, if_neg (List.isEmpty_iff.not.mpr hcs), trimStart]

theorem trim_append_of_allBlank (h : AllBlank ws) (cs : List Char) :
    trim (cs ++ ws) = trim cs := by
  by_cases hcs : trimStart cs = []
  · have hblank : AllBlank cs := List.dropWhile_eq_nil_iff.mp hcs
    have hall : trimStart (cs ++ ws) = [] := List.dropWhile_eq_nil_iff.mpr (hblank.append h)
    rw [trim, trim, hcs, hall]
  · rw [trim, trim, trimStart_append_of_ne_nil hcs, List.reverse_append, h.reverse.trimStart_append]

theorem AllBlank.infix_append_iff (h : AllBlank ws) (hc : isBlank c = false) :
    c :: a <:+: ws ++ cs ↔ c :: a <:+: cs := by
  induction ws with
  | nil => rfl
  | cons w ws ih =>
      obtain ⟨hw, hws⟩ := List.forall_mem_cons.mp h
      have hne : c ≠ w := by
        rintro rfl
        rw [hw] at hc
        cases hc
      rw [List.cons_append, List.infix_cons_iff, ih hws, List.cons_prefix_cons]
      simp [hne]

theorem AllBlank.append_infix_iff (h : AllBlank ws) (hc : isBlank c = false) :
    a ++ [c] <:+: cs ++ ws ↔ a ++ [c] <:+: cs := by
  rw [← List.reverse_infix, ← @List.reverse_infix _ _ cs, List.reverse_append,
    List.reverse_append, List.reverse_singleton, List.singleton_append,
    h.reverse.infix_append_iff hc]

/-! ## What ignores the ends of a text -/

def IgnoresEnds (f : List Char → α) : Prop :=
  ∀ ws cs ws', AllBlank ws → AllBlank ws' → f (ws ++ cs ++ ws') = f cs

theorem ignoresEnds_trim : IgnoresEnds trim := fun ws cs ws' h h' => by
  rw [trim_append_of_allBlank h', h.trim_append]

/-- A text is what trimming leaves of it, between white space. -/
theorem exists_trim (cs : List Char) :
    ∃ ws ws', AllBlank ws ∧ AllBlank ws' ∧ cs = ws ++ trim cs ++ ws' := by
  have htake : ∀ ds : List Char, AllBlank (ds.takeWhile isBlank) :=
    fun ds _ hc => List.mem_takeWhile_imp hc
  refine ⟨cs.takeWhile isBlank, ((trimStart cs).reverse.takeWhile isBlank).reverse, htake cs,
    (htake _).reverse, ?_⟩
  have hend : ∀ ds : List Char,
      (trimStart ds).reverse ++ (ds.takeWhile isBlank).reverse = ds.reverse := by
    intro ds
    rw [← List.reverse_append, trimStart, List.takeWhile_append_dropWhile]
  rw [trim, List.append_assoc, hend, List.reverse_reverse, trimStart,
    List.takeWhile_append_dropWhile]

theorem mem_trim (hc : isBlank c = false) (hmem : c ∈ cs) : c ∈ trim cs := by
  obtain ⟨ws, ws', h, h', hcs⟩ := exists_trim cs
  rw [hcs, List.mem_append, List.mem_append] at hmem
  exact (hmem.resolve_right (h'.not_mem hc)).resolve_left (h.not_mem hc)

theorem IgnoresEnds.trim {f : List Char → α} (hf : IgnoresEnds f) (cs : List Char) :
    f (trim cs) = f cs := by
  obtain ⟨ws, ws', h, h', hcs⟩ := exists_trim cs
  rw [← hf ws _ ws' h h', ← hcs]

/-- A trimmed text does not begin with white space, for it can be trimmed again. -/
theorem isBlank_of_trim_eq_cons (h : trim cs = c :: a) : isBlank c = false := by
  by_contra hc
  rw [Bool.not_eq_false] at hc
  have hagain : trim a = c :: a := by
    rw [← trim_cons_of_isBlank hc, ← h, ignoresEnds_trim.trim]
  obtain ⟨ws, ws', -, -, ha⟩ := exists_trim a
  have hlength := congrArg List.length ha
  simp only [hagain, List.length_append, List.length_cons] at hlength
  omega

theorem IgnoresEnds.comp {β : Type} {f : List Char → α} (hf : IgnoresEnds f) (g : α → β) :
    IgnoresEnds (g ∘ f) :=
  fun ws cs ws' h h' => congrArg g (hf ws cs ws' h h')

theorem IgnoresEnds.append_left {f : List Char → α} (hf : IgnoresEnds f) (h : AllBlank ws)
    (cs : List Char) : f (ws ++ cs) = f cs := by
  have hends := hf ws cs [] h (by simp [AllBlank])
  rwa [List.append_nil] at hends

theorem IgnoresEnds.append_right {f : List Char → α} (hf : IgnoresEnds f) (h : AllBlank ws)
    (cs : List Char) : f (cs ++ ws) = f cs :=
  hf [] cs ws (by simp [AllBlank]) h

/-! ## Words -/

theorem words_append_cons (hc : isBlank c = true) (a b : List Char) :
    words (a ++ c :: b) = words a ++ words b := by
  simp only [words, splitWhere_eq_splitOnP, List.splitOnP_append_cons a b hc, List.filter_append]

theorem ignoresEnds_words : IgnoresEnds words := by
  intro ws cs ws' h h'
  have hleft : words (ws ++ cs) = words cs := by
    induction ws with
    | nil => rfl
    | cons c ws ih =>
        obtain ⟨hc, hws⟩ := List.forall_mem_cons.mp h
        exact (words_cons_of_isBlank hc _).trans (ih hws)
  have hright : ∀ cs, words (cs ++ ws') = words cs := by
    clear hleft
    induction ws' with
    | nil => exact fun cs => by rw [List.append_nil]
    | cons c ws' ih =>
        obtain ⟨hc, hws'⟩ := List.forall_mem_cons.mp h'
        intro cs
        have hnil : words ws' = [] := ih hws' []
        rw [words_append_cons hc, hnil, List.append_nil]
  rw [hright, hleft]

/-- A gap between two parts of a text divides their words, however wide it is. -/
theorem words_append_append (h : AllBlank ws) (hne : ws ≠ []) (a b : List Char) :
    words (a ++ ws ++ b) = words a ++ words b := by
  obtain ⟨c, ws, rfl⟩ := List.exists_cons_of_ne_nil hne
  obtain ⟨hc, hws⟩ := List.forall_mem_cons.mp h
  rw [List.append_assoc, List.cons_append, words_append_cons hc, ignoresEnds_words.append_left hws]

/-! ## Pieces -/

theorem splitOn_append_cons (sep : Char) (a b : List Char) :
    splitOn sep (a ++ sep :: b) = splitOn sep a ++ splitOn sep b := by
  simp only [splitOn, splitWhere_eq_splitOnP]
  exact List.splitOnP_append_cons a b (beq_self_eq_true sep)

/-- When texts are put together, the last piece of the first one goes on in the second one. -/
theorem exists_splitOn_append (sep : Char) (a : List Char) :
    ∃ ps p, splitOn sep a = ps ++ [p] ∧ ∀ b q qs, splitOn sep b = q :: qs →
      splitOn sep (a ++ b) = ps ++ (p ++ q) :: qs := by
  induction a with
  | nil => exact ⟨[], [], rfl, fun b q qs hb => hb⟩
  | cons c a ih =>
      obtain ⟨ps, p, ha, hb⟩ := ih
      by_cases hc : (c == sep) = true
      · have hcut : ∀ cs, splitOn sep (c :: cs) = [] :: splitOn sep cs := fun cs => if_pos hc
        refine ⟨[] :: ps, p, by rw [hcut, ha, List.cons_append], ?_⟩
        intro b q qs hq
        rw [List.cons_append, hcut, hb b q qs hq, List.cons_append]
      · have hkept : ∀ cs, splitOn sep (c :: cs) = consFirst c (splitOn sep cs) :=
          fun cs => if_neg hc
        cases ps with
        | nil =>
            refine ⟨[], c :: p, by rw [hkept, ha]; rfl, ?_⟩
            intro b q qs hq
            rw [List.cons_append, hkept, hb b q qs hq]
            rfl
        | cons p' ps =>
            refine ⟨(c :: p') :: ps, p, by rw [hkept, ha]; rfl, ?_⟩
            intro b q qs hq
            rw [List.cons_append, hkept, hb b q qs hq]
            rfl

theorem splitOn_append_of_not_mem {q : List Char} {qs : List (List Char)} (ha : sep ∉ a)
    (hb : splitOn sep b = q :: qs) : splitOn sep (a ++ b) = (a ++ q) :: qs := by
  obtain ⟨ps, p, hps, happend⟩ := exists_splitOn_append sep a
  rw [splitOn_of_not_mem ha] at hps
  obtain ⟨rfl, hp⟩ := List.append_inj' (show [] ++ [a] = ps ++ [p] from hps) rfl
  rw [happend b q qs hb, List.singleton_inj.mp hp, List.nil_append]

theorem IgnoresEnds.pieces {f : List Char → α} (hf : IgnoresEnds f) (hsep : isBlank sep = false) :
    IgnoresEnds fun cs => (splitOn sep cs).map f := by
  intro ws cs ws' h h'
  have hleft : ∀ cs, (splitOn sep (ws ++ cs)).map f = (splitOn sep cs).map f := by
    intro cs
    obtain ⟨q, qs, hcs⟩ := List.exists_cons_of_ne_nil (splitOn_ne_nil sep cs)
    rw [splitOn_append_of_not_mem (h.not_mem hsep) hcs, hcs, List.map_cons, hf.append_left h,
      List.map_cons]
  have hright : (splitOn sep (cs ++ ws')).map f = (splitOn sep cs).map f := by
    obtain ⟨ps, p, hcs, happend⟩ := exists_splitOn_append sep cs
    rw [happend ws' ws' [] (splitOn_of_not_mem (h'.not_mem hsep)), hcs, List.map_append,
      List.map_singleton, hf.append_right h', List.map_append, List.map_singleton]
  show (splitOn sep (ws ++ cs ++ ws')).map f = (splitOn sep cs).map f
  rw [List.append_assoc, hleft, hright]

/-- In the pieces too a gap divides words, however wide it is. -/
theorem map_words_splitOn_append (hsep : isBlank sep = false) (h : AllBlank ws) (h' : AllBlank ws')
    (hne : ws ≠ []) (hne' : ws' ≠ []) (a b : List Char) :
    (splitOn sep (a ++ ws ++ b)).map words = (splitOn sep (a ++ ws' ++ b)).map words := by
  obtain ⟨ps, p, -, happend⟩ := exists_splitOn_append sep a
  obtain ⟨q, qs, hb⟩ := List.exists_cons_of_ne_nil (splitOn_ne_nil sep b)
  have hgap : ∀ vs, AllBlank vs → vs ≠ [] → (splitOn sep (a ++ vs ++ b)).map words =
      ps.map words ++ (words p ++ words q) :: qs.map words := by
    intro vs hvs hne
    rw [List.append_assoc, happend _ _ _ (splitOn_append_of_not_mem (hvs.not_mem hsep) hb),
      List.map_append, List.map_cons, ← List.append_assoc, words_append_append hvs hne]
  rw [hgap ws h hne, hgap ws' h' hne']

end ShiftReduce.Text
