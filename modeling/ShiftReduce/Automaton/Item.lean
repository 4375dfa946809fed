import ShiftReduce.Grammar.Basic

/-! # Items

- `Item`: a rule with a marker in its body; what stands before the marker has
  been recognized.
- `Item.nextSymbol?`, `Item.isComplete`: what the marker says.
- `Item.advance`: the marker moved over one symbol, in the arithmetic of 16 bits.
- `Grammar.MarkersFit`: the grammars whose bodies are short enough for that.
- `ItemSet`: a finite set of items, in ascending order and without repetition;
  `ofList` collects one.
-/

namespace ShiftReduce

/-! ## Items -/

@[ext]
structure Item where
  rule : RuleId
  /-- How many symbols of the body are before the marker: a number of 16 bits. -/
  marker : UInt16
deriving DecidableEq, Repr

namespace Item

/-- The order of items: by rule, then by marker. -/
def before (x y : Item) : Bool :=
  x.rule < y.rule || (x.rule == y.rule && x.marker < y.marker)

/-- The symbol right after the marker. -/
def nextSymbol? (g : Grammar) (x : Item) : Option Symbol := (g.body x.rule)[x.marker.toNat]?

/-- Whether nothing comes after the marker. -/
def isComplete (g : Grammar) (x : Item) : Bool := (g.body x.rule).length ≤ x.marker.toNat

/-- The item with the marker one symbol further on. Nothing is done about an overflow: behind
65535 symbols the marker begins again at 0. A build that checks its additions stops there
instead, and makes no automaton. -/
def advance (x : Item) : Item := ⟨x.rule, x.marker + 1⟩

end Item

/-- A marker can stand anywhere in a body, so that it never overflows: no body has more than 65535
symbols. -/
def Grammar.MarkersFit (g : Grammar) : Prop := ∀ r ∈ g.rules.values, r.body.length < UInt16.size

instance (g : Grammar) : Decidable g.MarkersFit :=
  inferInstanceAs (Decidable (∀ r ∈ g.rules.values, r.body.length < UInt16.size))

/-! ## Sets of items -/

structure ItemSet where
  items : List Item
deriving DecidableEq, Repr

namespace ItemSet

/-- Puts an item at its place in an ascending list, unless it is there. -/
def insertItem (x : Item) : List Item → List Item
  | [] => [x]
  | y :: ys =>
      if x = y then y :: ys
      else if x.before y then x :: y :: ys
      else y :: insertItem x ys

def ofList (xs : List Item) : ItemSet := ⟨xs.foldr insertItem []⟩

def contains (s : ItemSet) (x : Item) : Bool := s.items.contains x

def size (s : ItemSet) : Nat := s.items.length

def isEmpty (s : ItemSet) : Bool := s.items.isEmpty

theorem mem_insertItem {x z : Item} {ys : List Item} :
    z ∈ insertItem x ys ↔ z = x ∨ z ∈ ys := by
  induction ys with
  | nil => simp [insertItem]
  | cons y ys ih =>
      rw [insertItem]
      split
      · next h => subst h; simp
      · split
        · simp
        · rw [List.mem_cons, ih, List.mem_cons]
          constructor
          · rintro (h | h | h)
            · exact .inr (.inl h)
            · exact .inl h
            · exact .inr (.inr h)
          · rintro (h | h | h)
            · exact .inr (.inl h)
            · exact .inl h
            · exact .inr (.inr h)

theorem mem_ofList {z : Item} {xs : List Item} : z ∈ (ofList xs).items ↔ z ∈ xs := by
  induction xs with
  | nil => simp [ofList]
  | cons x xs ih =>
      have h : (ofList (x :: xs)).items = insertItem x (ofList xs).items := rfl
      rw [h, mem_insertItem, ih, List.mem_cons]

end ItemSet

end ShiftReduce
