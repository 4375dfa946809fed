import Mathlib.Data.List.Basic
import ShiftReduce.Text.Listing
import ShiftReduce.Text.Pieces

/-! # Texts that are joined and cut again

- `splitWhere_intercalate`: cutting undoes joining if no piece holds a separator.
- `append_inj_of_forall`: two texts are cut alike where the first parts hold members of one kind
  only and the second parts begin with none.
- `toList_lines`: lines that are ended are lines that are joined, with an empty one behind.
- `IsLine`: a text without a line end; such lines can be told from their text, by `lines_inj`.
- `IsUnbroken`: a text without white space.
- `IsWord`: one that is not empty; joined words keep their ends when they are trimmed.
- `words_intercalate`, `map_trim_splitOn_intercalate`: the words of a text, and the trimmed names
  between its commas.
-/

namespace ShiftReduce.Text

variable {c : Char} {cs sep w : List Char} {ws : List (List Char)}

/-! ## Pieces -/

/-- The place of a cut is known if all members before it have a property and the next one has
not. -/
theorem append_inj_of_forall {α : Type} {p : α → Prop} {xs xs' ys ys' : List α}
    (hxs : ∀ x ∈ xs, p x) (hxs' : ∀ x ∈ xs', p x) (hys : ∀ y ∈ ys.head?, ¬ p y)
    (hys' : ∀ y ∈ ys'.head?, ¬ p y) (h : xs ++ ys = xs' ++ ys') : xs = xs' ∧ ys = ys' := by
  induction xs generalizing xs' with
  | nil =>
      cases xs' with
      | nil => exact ⟨rfl, h⟩
      | cons x' xs' =>
          rw [List.nil_append] at h
          rw [h] at hys
          exact absurd (hxs' x' List.mem_cons_self) (hys x' rfl)
  | cons x xs ih =>
      rw [List.forall_mem_cons] at hxs
      cases xs' with
      | nil =>
          rw [List.nil_append] at h
          rw [← h] at hys'
          exact absurd hxs.1 (hys' x rfl)
      | cons x' xs' =>
          rw [List.forall_mem_cons] at hxs'
          obtain ⟨rfl, hrest⟩ := List.cons.inj h
          obtain ⟨rfl, hys⟩ := ih hxs.2 hxs'.2 hrest
          exact ⟨rfl, hys⟩

theorem splitWhere_eq_splitOnP (p : Char → Bool) (cs : List Char) :
    splitWhere p cs = cs.splitOnP p := by
  induction cs with
  | nil => rw [splitWhere, List.splitOnP_nil]
  | cons c cs ih =>
      rw [splitWhere, List.splitOnP_cons_eq_if_modifyHead, ih]
      cases h : cs.splitOnP p with
      | nil => exact absurd h (List.splitOnP_ne_nil p cs)
      | cons q qs => rfl

theorem splitOn_ne_nil (sep : Char) (cs : List Char) : splitOn sep cs ≠ [] := by
  rw [splitOn, splitWhere_eq_splitOnP]
  exact List.splitOnP_ne_nil _ cs

theorem splitWhere_intercalate (p : Char → Bool) (hc : p c = true) (hne : ws ≠ [])
    (hfree : ∀ w ∈ ws, ∀ x ∈ w, p x = false) : splitWhere p ([c].intercalate ws) = ws := by
  rw [splitWhere_eq_splitOnP]
  induction ws with
  | nil => exact absurd rfl hne
  | cons w ws ih =>
      rw [List.forall_mem_cons] at hfree
      cases ws with
      | nil => rw [List.intercalate_singleton, List.splitOnP_eq_singleton hfree.1]
      | cons w' ws =>
          rw [List.intercalate_cons_cons, List.append_assoc, List.singleton_append,
            List.splitOnP_append_cons_of_forall_mem hfree.1 c hc,
            ih (List.cons_ne_nil w' ws) hfree.2]

theorem splitOn_intercalate (hne : ws ≠ []) (hfree : ∀ w ∈ ws, c ∉ w) :
    splitOn c ([c].intercalate ws) = ws := by
  have hother : ∀ w ∈ ws, ∀ x ∈ w, (x == c) = false := by
    intro w hw x hx
    rw [beq_eq_false_iff_ne]
    rintro rfl
    exact hfree w hw hx
  exact splitWhere_intercalate (· == c) (beq_self_eq_true c) hne hother

theorem splitOn_of_not_mem (h : c ∉ cs) : splitOn c cs = [cs] := by
  have hfree : ∀ w ∈ [cs], c ∉ w := by
    rwa [List.forall_mem_singleton]
  have hsplit := splitOn_intercalate (List.cons_ne_nil cs []) hfree
  rwa [List.intercalate_singleton] at hsplit

theorem toList_lines (texts : List String) :
    (lines texts).toList = ['\n'].intercalate (texts.map String.toList ++ [[]]) := by
  rw [lines, String.toList_join]
  induction texts with
  | nil => rfl
  | cons text texts ih =>
      rw [List.map_cons, List.flatMap_cons, ih, List.map_cons, List.cons_append,
        List.intercalate_cons_of_ne_nil (by simp), String.toList_append]
      rfl

/-- A text without a line end. -/
def IsLine (text : String) : Prop := '\n' ∉ text.toList

instance (text : String) : Decidable (IsLine text) :=
  inferInstanceAs (Decidable ('\n' ∉ text.toList))

theorem IsLine.append {text text' : String} (h : IsLine text) (h' : IsLine text') :
    IsLine (text ++ text') := by
  rw [IsLine, String.toList_append, List.mem_append]
  exact not_or.mpr ⟨h, h'⟩

theorem lines_inj {texts texts' : List String} (h : ∀ text ∈ texts, IsLine text)
    (h' : ∀ text ∈ texts', IsLine text) : lines texts = lines texts' ↔ texts = texts' := by
  -- the pieces between line ends are the lines and the empty text behind the last end
  have hpieces : ∀ texts : List String, (∀ text ∈ texts, IsLine text) →
      splitOn '\n' (lines texts).toList = texts.map String.toList ++ [[]] := by
    intro texts h
    rw [toList_lines]
    apply splitOn_intercalate (by simp)
    rw [List.forall_mem_append, List.forall_mem_map, List.forall_mem_singleton]
    exact ⟨h, List.not_mem_nil⟩
  constructor
  · intro heq
    have hsame := hpieces texts h
    rw [heq, hpieces texts' h'] at hsame
    have hlists := (List.append_left_inj _).mp hsame
    exact (List.map_injective_iff.mpr (fun _ _ => String.toList_injective) hlists).symm
  · rintro rfl
    rfl

/-! ## Words -/

structure IsWord (w : List Char) : Prop where
  ne_nil : w ≠ []
  not_blank : ∀ c ∈ w, isBlank c = false

instance (w : List Char) : Decidable (IsWord w) :=
  decidable_of_iff (w ≠ [] ∧ w.all (!isBlank ·) = true)
    ⟨fun ⟨hne, hall⟩ => ⟨hne, by simpa using hall⟩, fun h => ⟨h.ne_nil, by simpa using h.not_blank⟩⟩

/-- A text without white space; it may be empty. -/
def IsUnbroken (text : String) : Prop := ∀ c ∈ text.toList, isBlank c = false

instance (text : String) : Decidable (IsUnbroken text) :=
  decidable_of_iff (text.toList.all (!isBlank ·) = true) (by simp [IsUnbroken])

theorem IsUnbroken.isLine {text : String} (h : IsUnbroken text) : IsLine text := by
  intro hmem
  have hblank := h '\n' hmem
  revert hblank
  decide

theorem intercalate_cons (sep w : List Char) (ws : List (List Char)) :
    sep.intercalate (w :: ws) = w ++ ws.flatMap (sep ++ ·) := by
  induction ws generalizing w with
  | nil => simp
  | cons w' ws ih => rw [List.intercalate_cons_cons, ih, List.flatMap_cons, List.append_assoc,
      List.append_assoc]

theorem mem_of_mem_intercalate (h : c ∈ sep.intercalate ws) : c ∈ sep ∨ ∃ w ∈ ws, c ∈ w := by
  cases ws with
  | nil => simp at h
  | cons w ws =>
      rw [intercalate_cons, List.mem_append, List.mem_flatMap] at h
      rcases h with h | ⟨w', hw', h⟩
      · exact .inr ⟨w, List.mem_cons_self, h⟩
      · rcases List.mem_append.mp h with h | h
        · exact .inl h
        · exact .inr ⟨w', List.mem_cons_of_mem w hw', h⟩

theorem head?_intercalate (hw : w ≠ []) : (sep.intercalate (w :: ws)).head? = w.head? := by
  rw [intercalate_cons, List.head?_append_of_ne_nil _ hw]

theorem getLast?_intercalate (hws : ∀ w ∈ ws, w ≠ []) {c : Char}
    (h : (sep.intercalate ws).getLast? = some c) : ∃ w ∈ ws, c ∈ w := by
  induction ws with
  | nil => simp at h
  | cons w ws ih =>
      rw [List.forall_mem_cons] at hws
      cases ws with
      | nil =>
          rw [List.intercalate_singleton] at h
          exact ⟨w, List.mem_cons_self, List.mem_of_getLast? h⟩
      | cons w' ws =>
          have hne : sep.intercalate (w' :: ws) ≠ [] := by
            rw [intercalate_cons]
            exact List.append_ne_nil_of_left_ne_nil (hws.2 w' List.mem_cons_self) _
          rw [List.intercalate_cons_cons, List.getLast?_append_of_ne_nil _ hne] at h
          obtain ⟨v, hv, hc⟩ := ih hws.2 h
          exact ⟨v, List.mem_cons_of_mem w hv, hc⟩

/-! ## Trimmed texts -/

theorem trimStart_eq_self (h : ∀ c, cs.head? = some c → isBlank c = false) :
    trimStart cs = cs := by
  cases cs with
  | nil => rfl
  | cons c cs => rw [trimStart, List.dropWhile_cons_of_neg (by simp [h c rfl])]

theorem trim_eq_self (hhead : ∀ c, cs.head? = some c → isBlank c = false)
    (hlast : ∀ c, cs.getLast? = some c → isBlank c = false) : trim cs = cs := by
  rw [trim, trimStart_eq_self hhead, trimStart_eq_self, List.reverse_reverse]
  rwa [List.head?_reverse]

theorem trim_cons_of_isBlank (hc : isBlank c = true) (cs : List Char) :
    trim (c :: cs) = trim cs := by
  have hstart : trimStart (c :: cs) = trimStart cs := List.dropWhile_cons_of_pos hc
  rw [trim, hstart, trim]

theorem IsWord.head? (hw : IsWord w) (h : w.head? = some c) : isBlank c = false :=
  hw.not_blank c (List.mem_of_head? h)

theorem IsWord.trim_eq_self (hw : IsWord w) : trim w = w :=
  Text.trim_eq_self (fun _ => hw.head?) fun c hc => hw.not_blank c (List.mem_of_getLast? hc)

theorem IsWord.trim_append (hw : IsWord w) (hc : isBlank c = true) : trim (w ++ [c]) = w := by
  have hhead : ∀ x, (w ++ [c]).head? = some x → isBlank x = false := by
    rw [List.head?_append_of_ne_nil _ hw.ne_nil]
    exact fun _ => hw.head?
  have hrest : trimStart w.reverse = w.reverse := by
    apply trimStart_eq_self
    rw [List.head?_reverse]
    exact fun x hx => hw.not_blank x (List.mem_of_getLast? hx)
  rw [trim, trimStart_eq_self hhead, List.reverse_append, List.reverse_singleton,
    List.singleton_append, trimStart, List.dropWhile_cons_of_pos hc]
  rw [trimStart] at hrest
  rw [hrest, List.reverse_reverse]

theorem trim_intercalate (hws : ∀ w ∈ ws, IsWord w) :
    trim (sep.intercalate ws) = sep.intercalate ws := by
  apply trim_eq_self
  · intro c hc
    cases ws with
    | nil => simp at hc
    | cons w ws =>
        rw [List.forall_mem_cons] at hws
        rw [head?_intercalate hws.1.ne_nil] at hc
        exact hws.1.head? hc
  · intro c hc
    obtain ⟨w, hw, hmem⟩ := getLast?_intercalate (fun w hw => (hws w hw).ne_nil) hc
    exact (hws w hw).not_blank c hmem

/-! ## Words and names -/

theorem words_cons_of_isBlank (hc : isBlank c = true) (cs : List Char) :
    words (c :: cs) = words cs := by
  rw [words, words, splitWhere, if_pos hc]
  rfl

theorem words_intercalate (hc : isBlank c = true) (hne : ws ≠ []) (hws : ∀ w ∈ ws, IsWord w) :
    words ([c].intercalate ws) = ws := by
  rw [words, splitWhere_intercalate isBlank hc hne fun w hw => (hws w hw).not_blank,
    List.filter_eq_self]
  intro w hw
  exact decide_eq_true (hws w hw).ne_nil

/-- The blank behind a comma stands before the next name, and is trimmed. -/
theorem map_trim_splitOn_intercalate (hne : ws ≠ []) (hws : ∀ w ∈ ws, IsWord w)
    (hfree : ∀ w ∈ ws, ',' ∉ w) :
    (splitOn ',' ([',', ' '].intercalate ws)).map trim = ws := by
  cases ws with
  | nil => exact absurd rfl hne
  | cons w ws =>
      have hjoin : [',', ' '].intercalate (w :: ws) =
          [','].intercalate (w :: ws.map (' ' :: ·)) := by
        rw [intercalate_cons, intercalate_cons, List.flatMap_map]
        rfl
      rw [List.forall_mem_cons] at hws hfree
      have hpieces : ∀ v ∈ w :: ws.map (' ' :: ·), ',' ∉ v := by
        rw [List.forall_mem_cons, List.forall_mem_map]
        exact ⟨hfree.1, fun v hv => by simpa using hfree.2 v hv⟩
      have htrim : ∀ v ∈ ws, trim (' ' :: v) = id v := fun v hv =>
        (trim_cons_of_isBlank rfl v).trans (hws.2 v hv).trim_eq_self
      rw [hjoin, splitOn_intercalate (List.cons_ne_nil w _) hpieces, List.map_cons,
        hws.1.trim_eq_self, List.map_map]
      exact congrArg (w :: ·) ((List.map_congr_left htrim).trans (List.map_id ws))

end ShiftReduce.Text
