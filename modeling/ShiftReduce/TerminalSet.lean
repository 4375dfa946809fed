import ShiftReduce.Symbol

/-! # Sets of terminals

- `TerminalSet`: a finite set of terminals, one bit of a number for each; equal
  sets are equal values.
- `contains`, `insert`, `union`, `ofList`, `toList`: `toList` is ascending.
-/

namespace ShiftReduce

structure TerminalSet where
  bits : Nat
deriving DecidableEq, Repr

namespace TerminalSet

instance : EmptyCollection TerminalSet := ⟨⟨0⟩⟩

instance : Inhabited TerminalSet := ⟨∅⟩

def contains (s : TerminalSet) (t : TerminalId) : Bool := s.bits.testBit t

def insert (s : TerminalSet) (t : TerminalId) : TerminalSet := ⟨s.bits ||| 1 <<< t⟩

def union (s u : TerminalSet) : TerminalSet := ⟨s.bits ||| u.bits⟩

def ofList (ts : List TerminalId) : TerminalSet := ts.foldl insert ∅

/-- The members, in ascending order. -/
def toList (s : TerminalSet) : List TerminalId :=
  if s.bits = 0 then [] else (List.range (s.bits.log2 + 1)).filter s.contains

def size (s : TerminalSet) : Nat := s.toList.length

def isEmpty (s : TerminalSet) : Bool := s.bits == 0

/-! ## What the operations do to membership -/

theorem contains_empty (t : TerminalId) : (∅ : TerminalSet).contains t = false :=
  Nat.zero_testBit t

theorem contains_insert (s : TerminalSet) (t u : TerminalId) :
    (s.insert t).contains u = (s.contains u || decide (t = u)) := by
  simp only [contains, insert, Nat.testBit_or, Nat.one_shiftLeft, Nat.testBit_two_pow]

theorem contains_union (s u : TerminalSet) (t : TerminalId) :
    (s.union u).contains t = (s.contains t || u.contains t) := by
  simp only [contains, union, Nat.testBit_or]

theorem contains_foldl_insert (s : TerminalSet) (ts : List TerminalId) (u : TerminalId) :
    (ts.foldl insert s).contains u = (s.contains u || ts.contains u) := by
  induction ts generalizing s with
  | nil => simp
  | cons t ts ih =>
      have hdecide : (u == t) = decide (t = u) := by
        rw [Bool.eq_iff_iff, beq_iff_eq, decide_eq_true_eq, eq_comm]
      rw [List.foldl_cons, ih, contains_insert, List.contains_cons, hdecide, Bool.or_assoc]

theorem contains_ofList {ts : List TerminalId} {u : TerminalId} :
    (ofList ts).contains u = true ↔ u ∈ ts := by
  rw [ofList, contains_foldl_insert, contains_empty, Bool.false_or, List.contains_iff_mem]

theorem ext_contains {s u : TerminalSet} (h : ∀ t, s.contains t = u.contains t) : s = u := by
  cases s; cases u
  exact congrArg TerminalSet.mk (Nat.eq_of_testBit_eq h)

theorem mem_toList {s : TerminalSet} {t : TerminalId} : t ∈ s.toList ↔ s.contains t = true := by
  unfold toList contains
  by_cases h0 : s.bits = 0
  · simp [h0]
  · rw [if_neg h0, List.mem_filter, List.mem_range]
    refine ⟨And.right, fun h => ⟨?_, h⟩⟩
    have h1 : 2 ^ t ≤ s.bits := Nat.ge_two_pow_of_testBit h
    exact Nat.lt_succ_of_le ((Nat.le_log2 h0).mpr h1)

theorem nodup_toList (s : TerminalSet) : s.toList.Nodup := by
  unfold toList
  split
  · exact List.Pairwise.nil
  · exact List.nodup_range.sublist List.filter_sublist

end TerminalSet

end ShiftReduce
