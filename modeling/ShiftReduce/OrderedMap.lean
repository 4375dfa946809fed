/-! # Maps in insertion order

The tables of this library are shown in the order in which they were filled, so
they are kept as lists of entries.

- `OrderedMap κ α`: entries `(key, value)`, a key at the place where it was
  first inserted.
- `find?`, `insert`: the value under a key; a new value takes the place of the
  old one, a new key goes to the end.
- `keys`, `values`: both in insertion order.
-/

namespace ShiftReduce

structure OrderedMap (κ α : Type) where
  entries : List (κ × α)
deriving DecidableEq, Repr

namespace OrderedMap

variable {κ α β : Type}

instance : EmptyCollection (OrderedMap κ α) := ⟨⟨[]⟩⟩

instance : Inhabited (OrderedMap κ α) := ⟨∅⟩

def keys (m : OrderedMap κ α) : List κ := m.entries.map Prod.fst

def values (m : OrderedMap κ α) : List α := m.entries.map Prod.snd

def size (m : OrderedMap κ α) : Nat := m.entries.length

theorem mem_values {m : OrderedMap κ α} {a : α} :
    a ∈ m.values ↔ ∃ k, (k, a) ∈ m.entries := by
  simp [values]

theorem length_values (m : OrderedMap κ α) : m.values.length = m.size := List.length_map _

theorem mem_keys {m : OrderedMap κ α} {k : κ} :
    k ∈ m.keys ↔ ∃ a, (k, a) ∈ m.entries := by
  simp [keys]

variable [DecidableEq κ]

def find? (m : OrderedMap κ α) (k : κ) : Option α := m.entries.lookup k

def contains (m : OrderedMap κ α) (k : κ) : Bool := (m.find? k).isSome

/-- Puts `a` under `k` in a list of entries. -/
def insertEntry (k : κ) (a : α) : List (κ × α) → List (κ × α)
  | [] => [(k, a)]
  | e :: es => if e.1 = k then (k, a) :: es else e :: insertEntry k a es

def insert (m : OrderedMap κ α) (k : κ) (a : α) : OrderedMap κ α :=
  ⟨insertEntry k a m.entries⟩

/-- Puts the value under `k` under `k'` too, if there is one. -/
def copyEntry (m : OrderedMap κ α) (k k' : κ) : OrderedMap κ α :=
  match m.find? k with
  | some a => m.insert k' a
  | none => m

/-- The same value under every key. -/
def const (ks : List κ) (a : α) : OrderedMap κ α :=
  ks.foldl (fun m k => m.insert k a) ∅

/-! ## What `insert` does to the views -/

theorem lookup_insertEntry (k k' : κ) (a : α) (es : List (κ × α)) :
    (insertEntry k a es).lookup k' =
      if k' = k then some a else es.lookup k' := by
  induction es with
  | nil =>
      by_cases h : k' = k
      · simp [insertEntry, h]
      · have h1 : (k' == k) = false := by simp [h]
        rw [insertEntry, List.lookup_cons, h1, if_neg h]
  | cons e es ih =>
      by_cases he : e.1 = k
      · by_cases h : k' = k
        · simp [insertEntry, he, h]
        · have h1 : (k' == k) = false := by simp [h]
          have h2 : (k' == e.1) = false := by simp [he, h]
          rw [insertEntry, if_pos he, List.lookup_cons, List.lookup_cons, h1, h2, if_neg h]
      · rw [insertEntry, if_neg he, List.lookup_cons, List.lookup_cons, ih]
        by_cases h : k' = e.1
        · have : k' ≠ k := fun hk => he (h ▸ hk)
          subst h
          simp [he]
        · have : (k' == e.1) = false := by simp [h]
          simp [this]

theorem find?_insert (m : OrderedMap κ α) (k k' : κ) (a : α) :
    (m.insert k a).find? k' = if k' = k then some a else m.find? k' :=
  lookup_insertEntry k k' a m.entries

theorem insertEntry_of_fresh {k : κ} {a : α} {es : List (κ × α)}
    (h : k ∉ es.map Prod.fst) : insertEntry k a es = es ++ [(k, a)] := by
  induction es with
  | nil => rfl
  | cons e es ih =>
      rw [List.map_cons, List.mem_cons, not_or] at h
      rw [insertEntry, if_neg (Ne.symm h.1), ih h.2, List.cons_append]

theorem entries_insert_of_fresh {m : OrderedMap κ α} {k : κ} {a : α} (h : k ∉ m.keys) :
    (m.insert k a).entries = m.entries ++ [(k, a)] :=
  insertEntry_of_fresh h

theorem map_fst_insertEntry {k : κ} {a : α} {es : List (κ × α)}
    (h : k ∈ es.map Prod.fst) : (insertEntry k a es).map Prod.fst = es.map Prod.fst := by
  induction es with
  | nil => simp at h
  | cons e es ih =>
      rw [insertEntry]
      by_cases he : e.1 = k
      · rw [if_pos he, List.map_cons, List.map_cons, he]
      · rw [List.map_cons, List.mem_cons] at h
        have hk : k ∈ es.map Prod.fst := h.resolve_left (Ne.symm he)
        rw [if_neg he, List.map_cons, List.map_cons, ih hk]

theorem keys_insert_of_mem {m : OrderedMap κ α} {k : κ} {a : α} (h : k ∈ m.keys) :
    (m.insert k a).keys = m.keys :=
  map_fst_insertEntry h

theorem insertEntry_of_lookup {k : κ} {a : α} {es : List (κ × α)}
    (h : es.lookup k = some a) : insertEntry k a es = es := by
  induction es with
  | nil => simp at h
  | cons e es ih =>
      rw [insertEntry]
      by_cases he : e.1 = k
      · subst he
        rw [List.lookup_cons, beq_self_eq_true] at h
        cases h
        rw [if_pos rfl]
      · have hne : (k == e.1) = false := beq_eq_false_iff_ne.mpr (Ne.symm he)
        rw [List.lookup_cons, hne] at h
        rw [if_neg he, ih h]

theorem insert_of_find? {m : OrderedMap κ α} {k : κ} {a : α} (h : m.find? k = some a) :
    m.insert k a = m :=
  congrArg OrderedMap.mk (insertEntry_of_lookup h)

/-! ## Lookup and entries -/

theorem mem_entries_of_find? {m : OrderedMap κ α} {k : κ} {a : α} (h : m.find? k = some a) :
    (k, a) ∈ m.entries := by
  obtain ⟨es⟩ := m
  induction es with
  | nil => simp [find?] at h
  | cons e es ih =>
      rw [find?, List.lookup_cons] at h
      split at h
      · next he =>
          rw [beq_iff_eq] at he
          cases h
          exact he ▸ List.mem_cons_self
      · exact List.mem_cons_of_mem e (ih h)

theorem find?_of_mem_entries {m : OrderedMap κ α} (hm : m.keys.Nodup) {k : κ} {a : α}
    (h : (k, a) ∈ m.entries) : m.find? k = some a := by
  obtain ⟨es⟩ := m
  induction es with
  | nil => simp at h
  | cons e es ih =>
      rw [keys, List.map_cons, List.nodup_cons] at hm
      rw [find?, List.lookup_cons]
      rcases List.mem_cons.mp h with rfl | h
      · simp
      · have hne : (k == e.1) = false := by
          rw [beq_eq_false_iff_ne]
          rintro rfl
          exact hm.1 (List.mem_map.mpr ⟨_, h, rfl⟩)
        rw [hne]
        exact ih hm.2 h

theorem contains_iff {m : OrderedMap κ α} {k : κ} : m.contains k = true ↔ k ∈ m.keys := by
  obtain ⟨es⟩ := m
  induction es with
  | nil => simp [contains, find?, keys]
  | cons e es ih =>
      simp only [contains, find?, keys, List.map_cons, List.mem_cons] at ih ⊢
      by_cases he : k = e.1
      · simp [he]
      · have hne : (k == e.1) = false := beq_eq_false_iff_ne.mpr he
        rw [List.lookup_cons, hne, ih]
        exact ⟨.inr, fun h => h.resolve_left he⟩

/-- There is at most one entry with a key. -/
theorem filterMap_entries {m : OrderedMap κ α} (hm : m.keys.Nodup) (k : κ) :
    m.entries.filterMap (fun e => if e.1 = k then some e.2 else none) = (m.find? k).toList := by
  obtain ⟨es⟩ := m
  induction es with
  | nil => rfl
  | cons e es ih =>
      obtain ⟨hfresh, hes⟩ := List.nodup_cons.mp hm
      have hrest := ih hes
      rw [find?] at hrest ⊢
      rw [List.filterMap_cons, List.lookup_cons]
      by_cases he : e.1 = k
      · subst he
        have hnone : List.lookup e.1 es = none := by
          rw [List.lookup_eq_none_iff]
          intro d hd
          rw [bne_iff_ne]
          exact fun hk => hfresh (List.mem_map.mpr ⟨d, hd, hk.symm⟩)
        rw [hrest, hnone]
        simp
      · have hne : (k == e.1) = false := beq_eq_false_iff_ne.mpr (Ne.symm he)
        simpa [he, hne] using hrest

/-- Lookup in a map whose values are known from their keys. -/
theorem find?_map_eq_some_iff {ks : List κ} {f : κ → α} {k : κ} {a : α} :
    (OrderedMap.mk (ks.map fun k => (k, f k))).find? k = some a ↔ k ∈ ks ∧ f k = a := by
  induction ks with
  | nil => simp [find?]
  | cons k' ks ih =>
      rw [find?] at ih ⊢
      rw [List.map_cons, List.lookup_cons, List.mem_cons]
      by_cases he : k = k'
      · subst he
        simp
      · have hne : (k == k') = false := beq_eq_false_iff_ne.mpr he
        simp only [hne, he, false_or]
        exact ih

theorem entries_foldl_insert {ks : List κ} {a : α} {m : OrderedMap κ α} (hks : ks.Nodup)
    (hm : ∀ k ∈ ks, k ∉ m.keys) :
    (ks.foldl (fun m k => m.insert k a) m).entries =
      m.entries ++ ks.map fun k => (k, a) := by
  induction ks generalizing m with
  | nil => simp
  | cons k ks ih =>
      rw [List.nodup_cons] at hks
      have hentries : (m.insert k a).entries = m.entries ++ [(k, a)] :=
        entries_insert_of_fresh (hm k List.mem_cons_self)
      rw [List.foldl_cons, ih hks.2, hentries, List.append_assoc]
      · rfl
      · intro k' hk' hmem
        simp only [keys, hentries, List.map_append, List.map_cons, List.map_nil,
          List.mem_append, List.mem_singleton] at hmem
        rcases hmem with hmem | rfl
        · exact hm k' (List.mem_cons_of_mem k hk') hmem
        · exact hks.1 hk'

theorem entries_const {ks : List κ} {a : α} (hks : ks.Nodup) :
    (const ks a).entries = ks.map fun k => (k, a) :=
  (entries_foldl_insert hks (by simp [keys, EmptyCollection.emptyCollection])).trans
    (List.nil_append _)

end OrderedMap

end ShiftReduce
