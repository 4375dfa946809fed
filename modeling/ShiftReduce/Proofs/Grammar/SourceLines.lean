import Mathlib.Data.List.Infix
import ShiftReduce.Grammar.Layout
import ShiftReduce.Grammar.Source
import ShiftReduce.Proofs.Text.Blanks

/-! # The lines of a source

The reader cuts a source at each `\n` and trims the pieces, so how a line is ended makes no
difference, and neither does the end of the last line.

- `map_trim_splitOn`: the pieces are the lines, when they are trimmed.
- `significantLines_eq`: so the lines that count are found among the physical ones, with their
  numbers.
- `significantFrom_take`: those among the first lines are the ones with a small number.
- `exists_isCut`: a source can be cut after any line.
-/

namespace ShiftReduce

namespace Text

variable {a b cs : List Char}

/-! ## Ends of lines -/

theorem trim_dropReturn (cs : List Char) : trim (dropReturn cs) = trim cs := by
  rw [dropReturn]
  split
  · next hlast =>
      obtain ⟨cs, rfl⟩ := List.getLast?_eq_some_iff.mp hlast
      rw [List.dropLast_concat, trim_append_of_allBlank (by decide)]
  · rfl

/-- An empty piece behind the last end of a line is no line. -/
theorem map_trim_splitOn (cs : List Char) : ∃ rest, (rest = [] ∨ rest = [[]]) ∧
    (splitOn '\n' cs).map trim = (splitLines cs).map trim ++ rest := by
  obtain ⟨ps, p, hcs, -⟩ := exists_splitOn_append '\n' cs
  have hlines : (splitLines cs).map trim = ps.map trim ++ ([p].filter (· ≠ [])).map trim := by
    rw [splitLines, hcs, List.dropLast_concat, List.getLast?_concat, List.map_append, List.map_map]
    congr 1
    exact List.map_congr_left fun p _ => trim_dropReturn p
  simp only [hlines, hcs, List.map_append, List.append_assoc]
  by_cases hp : p = []
  · exact ⟨[[]], .inr rfl, by simp [hp, trim, trimStart]⟩
  · exact ⟨[], .inl rfl, by simp [hp]⟩

theorem splitLines_append_cons (ha : '\n' ∉ a) (b : List Char) :
    splitLines (a ++ '\n' :: b) = dropReturn a :: splitLines b := by
  have hne := splitOn_ne_nil '\n' b
  have hsplit : splitOn '\n' (a ++ '\n' :: b) = a :: splitOn '\n' b := by
    rw [splitOn_append_cons, splitOn_of_not_mem ha, List.singleton_append]
  rw [splitLines, splitLines, hsplit, List.dropLast_cons_of_ne_nil hne, List.map_cons,
    List.getLast?_cons_of_ne_nil hne, List.cons_append]

/-- The end of the last line makes no difference. -/
example : splitLines ['a', '\r', '\n', 'b'] = splitLines ['a', '\n', 'b', '\r', '\n'] := by decide

theorem length_splitLines_of_not_mem (h : '\n' ∉ cs) : (splitLines cs).length ≤ 1 := by
  rw [splitLines, splitOn_of_not_mem h]
  exact List.length_filter_le _ _

/-- A text can be cut after any of its lines. -/
theorem exists_splitLines_eq_take (cs : List Char) (k : Nat) :
    ∃ ds, ds <+: cs ∧ splitLines ds = (splitLines cs).take k := by
  induction k generalizing cs with
  | zero => exact ⟨[], List.nil_prefix, rfl⟩
  | succ k ih =>
      by_cases hcs : '\n' ∈ cs
      · obtain ⟨a, b, rfl, ha⟩ := List.eq_append_cons_of_mem hcs
        obtain ⟨ds, hds, hlines⟩ := ih b
        refine ⟨a ++ '\n' :: ds, ?_, ?_⟩
        · rw [List.prefix_append_right_inj, List.prefix_cons_inj]
          exact hds
        · rw [splitLines_append_cons ha, splitLines_append_cons ha, hlines, List.take_succ_cons]
      · have hshort := length_splitLines_of_not_mem hcs
        exact ⟨cs, List.prefix_refl cs, (List.take_of_length_le (by omega)).symm⟩

end Text

theorem exists_isCut (source : String) (k : Nat) :
    ∃ source', source'.toList <+: source.toList ∧ IsCut k source source' := by
  obtain ⟨ds, hbegins, hlines⟩ := Text.exists_splitLines_eq_take source.toList k
  refine ⟨String.ofList ds, ?_, ?_⟩
  · rwa [String.toList_ofList]
  · rwa [IsCut, physicalLines, String.toList_ofList]

theorem IsCut.sameLines {source source' : String} {k n : Nat} (h : IsCut k source source')
    (hle : n ≤ k) : SameLines n source source' := by
  rw [SameLines, h, List.take_take, Nat.min_eq_left hle]

/-! ## Lines that count -/

/-- The significant ones among the lines, the first line having the number `n`. -/
def significantFrom (n : Nat) (lines : List (List Char)) : List SourceLine :=
  ((lines.zipIdx n).map fun (text, n) => (⟨n, Text.trim text⟩ : SourceLine)).filter
    (·.isSignificant)

section significantFrom

variable {n : Nat} {lines : List (List Char)} {l : SourceLine}

theorem significantFrom_append (n : Nat) (lines lines' : List (List Char)) :
    significantFrom n (lines ++ lines') =
      significantFrom n lines ++ significantFrom (n + lines.length) lines' := by
  simp only [significantFrom, List.zipIdx_append, List.map_append, List.filter_append]

theorem significantFrom_map_trim (n : Nat) (lines : List (List Char)) :
    significantFrom n (lines.map Text.trim) = significantFrom n lines := by
  rw [significantFrom, List.zipIdx_map, List.map_map, significantFrom]
  congr 2
  funext ⟨text, n⟩
  exact congrArg (SourceLine.mk n) (Text.ignoresEnds_trim.trim text)

theorem mem_significantFrom (h : l ∈ significantFrom n lines) :
    n ≤ l.number ∧ l.number < n + lines.length ∧
      lines[l.number - n]?.map Text.trim = some l.text := by
  obtain ⟨⟨text, i⟩, hmem, rfl⟩ := List.mem_map.mp (List.mem_of_mem_filter h)
  obtain ⟨hle, hget⟩ := List.mk_mem_zipIdx_iff_le_and_getElem?_sub.mp hmem
  refine ⟨hle, ?_, ?_⟩
  · have hlt := (List.getElem?_eq_some_iff.mp hget).1
    show i < n + lines.length
    omega
  · show lines[i - n]?.map Text.trim = some (Text.trim text)
    rw [hget, Option.map_some]

theorem pairwise_significantFrom (n : Nat) (lines : List (List Char)) :
    (significantFrom n lines).Pairwise (·.number < ·.number) := by
  have hall : ((lines.zipIdx n).map Prod.snd).Pairwise (· < ·) := by
    rw [List.zipIdx_map_snd]
    exact List.pairwise_lt_range'
  exact List.Pairwise.filter _ (List.pairwise_map.mpr (List.pairwise_map.mp hall))

theorem significantFrom_take (k : Nat) (lines : List (List Char)) :
    significantFrom 1 (lines.take k) = (significantFrom 1 lines).filter (·.number ≤ k) := by
  have hfirst : ∀ l ∈ significantFrom 1 (lines.take k), l.number ≤ k := by
    intro l hl
    have hlt := (mem_significantFrom hl).2.1
    have hlength := List.length_take_le k lines
    omega
  have hrest : ∀ l ∈ significantFrom (1 + (lines.take k).length) (lines.drop k),
      ¬ l.number ≤ k := by
    intro l hl
    obtain ⟨hle, hlt, -⟩ := mem_significantFrom hl
    rw [List.length_take] at hle hlt
    rw [List.length_drop] at hlt
    omega
  conv_rhs => rw [← List.take_append_drop k lines]
  rw [significantFrom_append, List.filter_append,
    List.filter_eq_self.mpr fun l hl => decide_eq_true (hfirst l hl),
    List.filter_eq_nil_iff.mpr fun l hl => by simpa using hrest l hl, List.append_nil]

end significantFrom

theorem significantLines_eq (source : String) :
    significantLines source = significantFrom 1 (physicalLines source) := by
  obtain ⟨rest, hrest, hpieces⟩ := Text.map_trim_splitOn source.toList
  calc significantLines source
      = significantFrom 1 (Text.splitOn '\n' source.toList) := rfl
    _ = significantFrom 1 ((physicalLines source).map Text.trim ++ rest) := by
        rw [← significantFrom_map_trim, hpieces, physicalLines]
    _ = significantFrom 1 (physicalLines source) := by
        rw [significantFrom_append, significantFrom_map_trim]
        rcases hrest with rfl | rfl
        · exact List.append_nil _
        · exact List.append_nil _

end ShiftReduce
