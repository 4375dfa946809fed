import ShiftReduce.Search.Reachability

/-! # The order of a search

- `Explores`: the search without a bound on its visits. With enough visits `explore` is that
  search (`explores_reachable`).
- `mem_explore`: what is found is there from the beginning, or a successor of a point that has
  been visited.
- `ReachesIn`: `Reaches`, the steps counted.
- `exists_reachesIn_of_le`: the points are found in the order of their distance.
-/

namespace ShiftReduce

variable {α : Type} [DecidableEq α] {next : α → List α}

/-! ## Without a bound -/

/-- From position `i` of `seen` on, the visits come to an end, and these points are found. -/
inductive Explores (next : α → List α) : Nat → List α → List α → Prop where
  | done {i : Nat} {seen : List α} (h : seen.length ≤ i) : Explores next i seen seen
  | visit {i : Nat} {seen found : List α} {x : α} (h : seen[i]? = some x)
      (rest : Explores next (i + 1) (addNew seen (next x)) found) : Explores next i seen found

section

variable {U : List α} (hU : ∀ x ∈ U, ∀ y ∈ next x, y ∈ U)

include hU

theorem explores_explore {n i : Nat} {seen : List α} (hnd : seen.Nodup)
    (hsub : ∀ x ∈ seen, x ∈ U) (hn : U.length ≤ n + i) :
    Explores next i seen (explore next n i seen) := by
  have hlen : seen.length ≤ U.length := (hnd.subperm hsub).length_le
  induction n generalizing i seen with
  | zero => exact .done (by omega)
  | succ n ih =>
      rw [explore]
      split
      · next hi => exact .done (List.getElem?_eq_none_iff.mp hi)
      · next x hx =>
          have hx' : x ∈ U := hsub x (List.mem_of_getElem? hx)
          have hnd' : (addNew seen (next x)).Nodup := nodup_addNew hnd
          have hsub' : ∀ y ∈ addNew seen (next x), y ∈ U := by
            intro y hy
            rcases mem_addNew.mp hy with hy | hy
            · exact hsub y hy
            · exact hU x hx' y hy
          exact .visit hx (ih hnd' hsub' (by omega) (hnd'.subperm hsub').length_le)

theorem explores_reachable {n : Nat} {start : List α} (hstart : ∀ x ∈ start, x ∈ U)
    (hn : U.length ≤ n) : Explores next 0 (addNew [] start) (reachable next n start) := by
  apply explores_explore hU (nodup_addNew List.nodup_nil) _ hn
  intro x hx
  rcases mem_addNew.mp hx with hx | hx
  · cases hx
  · exact hstart x hx

end

theorem Explores.prefix {i : Nat} {seen found : List α} (h : Explores next i seen found) :
    seen <+: found := by
  induction h with
  | done _ => exact List.prefix_refl _
  | visit _ _ ih => exact (prefix_addNew _ _).trans ih

/-! ## One visit after the other -/

theorem explore_exhausted {i : Nat} {seen : List α} (h : seen[i]? = none) :
    ∀ n, explore next n i seen = seen
  | 0 => rfl
  | n + 1 => by rw [explore, h]

theorem explore_add (m n i : Nat) (seen : List α) :
    explore next (m + n) i seen = explore next n (i + m) (explore next m i seen) := by
  induction m generalizing i seen with
  | zero => rw [Nat.zero_add, explore, Nat.add_zero]
  | succ m ih =>
      rw [Nat.succ_add, explore, explore]
      split
      · next hi =>
          have hlen : seen.length ≤ i := List.getElem?_eq_none_iff.mp hi
          exact (explore_exhausted (List.getElem?_eq_none_iff.mpr (by omega)) n).symm
      · rw [ih, Nat.add_right_comm, Nat.add_assoc]

variable {seen : List α}

/-- What has been found keeps its position. -/
theorem getElem?_explore_add {m p : Nat} {x : α} (h : (explore next m 0 seen)[p]? = some x)
    (n : Nat) : (explore next (m + n) 0 seen)[p]? = some x := by
  rw [explore_add]
  have hprefix : explore next m 0 seen <+: explore next n (0 + m) (explore next m 0 seen) :=
    prefix_explore _ _ _
  obtain ⟨rest, hrest⟩ := hprefix
  rw [← hrest, List.getElem?_append_left (List.getElem?_eq_some_iff.mp h).1]
  exact h

/-- A point at a position that has been visited was there at its visit. -/
theorem getElem?_explore_visited {q n : Nat} (hq : q ≤ n) {x : α}
    (h : (explore next n 0 seen)[q]? = some x) : (explore next q 0 seen)[q]? = some x := by
  obtain ⟨k, rfl⟩ := Nat.exists_eq_add_of_le hq
  cases hx : (explore next q 0 seen)[q]? with
  | some y =>
      rw [getElem?_explore_add hx] at h
      exact h
  | none =>
      rw [explore_add, Nat.zero_add, explore_exhausted hx, hx] at h
      cases h

/-- The visit of the point at position `n`. -/
theorem explore_succ {n : Nat} {x : α} (h : (explore next n 0 seen)[n]? = some x) :
    explore next (n + 1) 0 seen = addNew (explore next n 0 seen) (next x) := by
  rw [explore_add, Nat.zero_add, explore, h]
  rfl

theorem mem_explore {n : Nat} {x : α} (h : x ∈ explore next n 0 seen) :
    x ∈ seen ∨ ∃ p < n, ∃ z, (explore next n 0 seen)[p]? = some z ∧ x ∈ next z := by
  induction n with
  | zero => exact .inl h
  | succ n ih =>
      have hold : x ∈ explore next n 0 seen → x ∈ seen ∨
          ∃ p < n + 1, ∃ z, (explore next (n + 1) 0 seen)[p]? = some z ∧ x ∈ next z := by
        intro hx
        rcases ih hx with hx | ⟨p, hp, z, hz, hx⟩
        · exact .inl hx
        · exact .inr ⟨p, by omega, z, getElem?_explore_add hz 1, hx⟩
      cases hz : (explore next n 0 seen)[n]? with
      | none =>
          rw [explore_add, Nat.zero_add, explore_exhausted hz] at h
          exact hold h
      | some z =>
          rw [explore_succ hz] at h
          rcases mem_addNew.mp h with h | h
          · exact hold h
          · exact .inr ⟨n, by omega, z, getElem?_explore_add hz 1, h⟩

/-- If a point is a successor of the one at position `q`, all points before it were found
by then. -/
theorem exists_earlier_source (hnd : seen.Nodup) {n i j q : Nat} {x y z : α} (hq : q < n)
    (hij : i < j) (hx : (explore next n 0 seen)[i]? = some x)
    (hy : (explore next n 0 seen)[j]? = some y) (hz : (explore next n 0 seen)[q]? = some z)
    (hyz : y ∈ next z) :
    x ∈ seen ∨ ∃ p ≤ q, ∃ w, (explore next n 0 seen)[p]? = some w ∧ x ∈ next w := by
  have hvisit := explore_succ (getElem?_explore_visited (Nat.le_of_lt hq) hz)
  have hfound : y ∈ explore next (q + 1) 0 seen := by
    rw [hvisit]
    exact mem_addNew.mpr (.inr hyz)
  obtain ⟨k, rfl⟩ := Nat.exists_eq_add_of_le (show q + 1 ≤ n from hq)
  -- no point is listed twice, so the visit of `q` has come as far as position `j`
  obtain ⟨j', hj'⟩ := List.mem_iff_getElem?.mp hfound
  have hsame : j' = j := by
    have hj := getElem?_explore_add hj' k
    exact position_unique (nodup_explore _ _ hnd) hj hy
  have hlen : j' < (explore next (q + 1) 0 seen).length := (List.getElem?_eq_some_iff.mp hj').1
  obtain ⟨x', hx'⟩ : ∃ x', (explore next (q + 1) 0 seen)[i]? = some x' :=
    ⟨_, List.getElem?_eq_getElem (by omega)⟩
  have hxx' : x' = x := Option.some.inj ((getElem?_explore_add hx' k).symm.trans hx)
  subst hxx'
  rcases mem_explore (List.mem_of_getElem? hx') with hx0 | ⟨p, hp, w, hw, hxw⟩
  · exact .inl hx0
  · exact .inr ⟨p, by omega, w, getElem?_explore_add hw k, hxw⟩

/-! ## Distances -/

section

omit [DecidableEq α]

/-- `Reaches` by that many steps. -/
inductive ReachesIn (next : α → List α) (x : α) : Nat → α → Prop where
  | refl : ReachesIn next x 0 x
  | tail {n : Nat} {y z : α} (h : ReachesIn next x n y) (hz : z ∈ next y) :
      ReachesIn next x (n + 1) z

theorem ReachesIn.reaches {x y : α} {n : Nat} (h : ReachesIn next x n y) : Reaches next x y := by
  induction h with
  | refl => exact .refl
  | tail _ hz ih => exact Relation.ReflTransGen.tail ih hz

theorem Reaches.exists_reachesIn {x y : α} (h : Reaches next x y) :
    ∃ n, ReachesIn next x n y := by
  induction h with
  | refl => exact ⟨0, .refl⟩
  | tail _ hz ih =>
      obtain ⟨n, hn⟩ := ih
      exact ⟨n + 1, .tail hn hz⟩

theorem Reaches.mem_of_closed {U : List α} (hU : ∀ x ∈ U, ∀ y ∈ next x, y ∈ U) {x y : α}
    (hx : x ∈ U) (h : Reaches next x y) : y ∈ U := by
  induction h with
  | refl => exact hx
  | tail _ hz ih => exact hU _ ih _ hz

end

theorem reachable_single (n : Nat) (s : α) : reachable next n [s] = explore next n 0 [s] := by
  simp [reachable, addNew]

theorem getElem?_explore_start (n : Nat) (s : α) : (explore next n 0 [s])[0]? = some s := by
  have hstart : (explore next 0 0 [s])[0]? = some s := rfl
  have h := getElem?_explore_add hstart n
  rwa [Nat.zero_add] at h

section

variable {U : List α} (hU : ∀ x ∈ U, ∀ y ∈ next x, y ∈ U) {s : α} (hs : s ∈ U) {n : Nat}
  (hn : U.length ≤ n)

include hU hs hn

theorem mem_reachable_single {z : α} : z ∈ reachable next n [s] ↔ Reaches next s z := by
  rw [mem_reachable_iff hU (by simpa using hs) hn]
  simp

/-- Every point is visited. -/
theorem length_reachable_le : (reachable next n [s]).length ≤ n := by
  have hsub : reachable next n [s] ⊆ U := by
    intro z hz
    exact ((mem_reachable_single hU hs hn).mp hz).mem_of_closed hU hs
  exact Nat.le_trans ((nodup_reachable n [s]).subperm hsub).length_le hn

/-- A point is not farther from the beginning than those that are found after it. -/
theorem exists_reachesIn_of_le {d i j : Nat} (hij : i ≤ j) {x y : α}
    (hx : (reachable next n [s])[i]? = some x) (hy : (reachable next n [s])[j]? = some y)
    (hd : ReachesIn next s d y) : ∃ d' ≤ d, ReachesIn next s d' x := by
  have hmem : ∀ z, z ∈ reachable next n [s] ↔ Reaches next s z :=
    fun z => mem_reachable_single hU hs hn
  have hnd : (reachable next n [s]).Nodup := nodup_reachable n [s]
  have hlen := length_reachable_le hU hs hn
  rw [reachable_single] at hmem hnd hlen hx hy
  induction d generalizing i j x y with
  | zero =>
      cases hd
      have hfirst : (explore next n 0 [s])[0]? = some s := getElem?_explore_start n s
      have hj : 0 = j := position_unique hnd hfirst hy
      have hi : i = 0 := by omega
      subst hi
      rw [hfirst] at hx
      cases hx
      exact ⟨0, Nat.le_refl 0, .refl⟩
  | succ d ih =>
      cases hd with
      | @tail _ z _ hd hyz =>
          obtain ⟨q, hq⟩ := List.mem_iff_getElem?.mp ((hmem z).mpr hd.reaches)
          have hqn : q < n := Nat.lt_of_lt_of_le (List.getElem?_eq_some_iff.mp hq).1 hlen
          rcases Nat.lt_or_eq_of_le hij with hlt | rfl
          · rcases exists_earlier_source (List.nodup_singleton s) hqn hlt hx hy hq hyz with
              hx0 | ⟨p, hp, w, hw, hxw⟩
            · rw [List.mem_singleton] at hx0
              subst hx0
              exact ⟨0, Nat.zero_le _, .refl⟩
            · obtain ⟨d', hd', hreach⟩ := ih hp hw hq hd
              exact ⟨d' + 1, Nat.succ_le_succ hd', .tail hreach hxw⟩
          · rw [hx] at hy
            cases hy
            exact ⟨d + 1, Nat.le_refl _, .tail hd hyz⟩

end

end ShiftReduce
