import Mathlib.Data.List.AList
import Mathlib.Data.List.Induction

/-!
# Hash maps

A hash map is an association list with distinct keys; its iteration order is the order in which the
keys came in. `collect` fills a map from an iterator, a later value replacing an earlier one.

* **`collect_iter`**: a map collected from its own iterator is the same map.
* **`lookup_foldl_insert`**: what a map has after the entries of another were inserted into it.
-/

/-- A hash map from `K` to `V`. -/
abbrev HashMap (K V : Type) : Type := AList fun _ : K => V

namespace HashMap

variable {K V : Type} [DecidableEq K]

omit [DecidableEq K] in
/-- The entries in iteration order. -/
def iter (m : HashMap K V) : List (K × V) := m.entries.reverse.map fun e => (e.1, e.2)

/-- The map of an iterator's entries. -/
def collect (l : List (K × V)) : HashMap K V := l.foldl (fun m e => m.insert e.1 e.2) ∅

theorem iter_insert_of_notMem {m : HashMap K V} {k : K} (hk : k ∉ m) (v : V) :
    iter (m.insert k v) = iter m ++ [(k, v)] := by
  simp only [iter, AList.entries_insert_of_notMem hk, List.reverse_cons, List.map_append,
    List.map_cons, List.map_nil]

theorem collect_concat (l : List (K × V)) (e : K × V) :
    collect (l ++ [e]) = (collect l).insert e.1 e.2 := by
  simp only [collect, List.foldl_append, List.foldl_cons, List.foldl_nil]

/-- **Collecting a map's own entries gives the map back.** -/
@[simp] theorem collect_iter (m : HashMap K V) : collect (iter m) = m := by
  induction m using AList.insertRec with
  | H0 => rfl
  | IH k v m hk ih => rw [iter_insert_of_notMem hk, collect_concat, ih]

theorem mem_collect {l : List (K × V)} {k : K} : k ∈ collect l ↔ ∃ v, (k, v) ∈ l := by
  induction l using List.reverseRecOn with
  | nil => simp [collect]
  | append_singleton l e ih =>
    rw [collect_concat, AList.mem_insert, ih]
    constructor
    · rintro (rfl | ⟨v, hv⟩)
      · exact ⟨e.2, by simp⟩
      · exact ⟨v, List.mem_append_left _ hv⟩
    · rintro ⟨v, hv⟩
      rcases List.mem_append.mp hv with h | h
      · exact Or.inr ⟨v, h⟩
      · exact Or.inl (congrArg Prod.fst (List.mem_singleton.mp h))

/-- A list with one value for each key is what its map says. -/
theorem lookup_collect {l : List (K × V)} {k : K} {v : V}
    (h : ∀ k v v', (k, v) ∈ l → (k, v') ∈ l → v = v') :
    (collect l).lookup k = some v ↔ (k, v) ∈ l := by
  induction l using List.reverseRecOn with
  | nil => simp [collect]
  | append_singleton l e ih =>
    have hl := ih fun k v v' hv hv' =>
      h k v v' (List.mem_append_left _ hv) (List.mem_append_left _ hv')
    have he : (e.1, e.2) ∈ l ++ [e] := List.mem_append_right _ List.mem_cons_self
    rw [collect_concat]
    by_cases hk : k = e.1
    · subst hk
      rw [AList.lookup_insert, Option.some.injEq]
      constructor
      · rintro rfl
        exact he
      · exact fun hv => h _ _ _ he hv
    · rw [AList.lookup_insert_ne hk, hl, List.mem_append, List.mem_singleton]
      exact ⟨Or.inl, Or.rec id fun hv => absurd (congrArg Prod.fst hv) hk⟩

theorem mem_iter {m : HashMap K V} {k : K} {v : V} : (k, v) ∈ iter m ↔ m.lookup k = some v := by
  rw [← Option.mem_def, AList.mem_lookup_iff]
  simp [iter, Sigma.exists]

theorem mem_of_lookup {m : HashMap K V} {k : K} {v : V} (h : m.lookup k = some v) : k ∈ m :=
  AList.lookup_isSome.mp (by rw [h]; rfl)

theorem lookup_of_isEmpty {m : HashMap K V} (h : m.entries.isEmpty = true) (k : K) :
    m.lookup k = none := by
  have hm : m = ∅ := AList.ext (List.isEmpty_iff.mp h)
  rw [hm, AList.lookup_empty]

omit [DecidableEq K] in
theorem nodup_iter (m : HashMap K V) : ((iter m).map Prod.fst).Nodup := by
  simp only [iter, List.map_map, List.map_reverse, List.nodup_reverse]
  exact m.nodupKeys

/-! ## Inserting entry by entry -/

section Insert

variable {W : Type} (f : W → V)

theorem lookup_foldl_insert_of_notMem (l : List (K × W)) (m : HashMap K V) {k : K}
    (hk : k ∉ l.map Prod.fst) :
    (l.foldl (fun m e => m.insert e.1 (f e.2)) m).lookup k = m.lookup k := by
  induction l generalizing m with
  | nil => rfl
  | cons e l ih =>
    rw [List.map_cons, List.mem_cons, not_or] at hk
    rw [List.foldl_cons, ih _ hk.2, AList.lookup_insert_ne hk.1]

theorem lookup_foldl_insert_of_mem (l : List (K × W)) (m : HashMap K V) {k : K} {v : W}
    (hn : (l.map Prod.fst).Nodup) (hk : (k, v) ∈ l) :
    (l.foldl (fun m e => m.insert e.1 (f e.2)) m).lookup k = some (f v) := by
  induction l generalizing m with
  | nil => cases hk
  | cons e l ih =>
    rw [List.map_cons, List.nodup_cons] at hn
    rw [List.foldl_cons]
    rcases List.mem_cons.mp hk with rfl | hk
    · rw [lookup_foldl_insert_of_notMem f l _ hn.1, AList.lookup_insert]
    · exact ih _ hn.2 hk

/-- **The entries of `n`, inserted into `m` one by one,** come before those of `m`. -/
theorem lookup_foldl_insert (m : HashMap K V) (n : HashMap K W) (k : K) :
    (n.iter.foldl (fun m e => m.insert e.1 (f e.2)) m).lookup k =
      ((n.lookup k).map f).or (m.lookup k) := by
  cases h : n.lookup k with
  | none =>
    refine lookup_foldl_insert_of_notMem f _ _ fun hk => ?_
    obtain ⟨e, he, rfl⟩ := List.mem_map.mp hk
    rw [mem_iter.mp he] at h
    cases h
  | some v => exact lookup_foldl_insert_of_mem f _ _ (nodup_iter n) (mem_iter.mpr h)

/-- A map with its values changed. -/
theorem lookup_collect_map (n : HashMap K W) (k : K) :
    (collect (n.iter.map fun e => (e.1, f e.2))).lookup k = (n.lookup k).map f := by
  rw [collect, List.foldl_map, lookup_foldl_insert, AList.lookup_empty, Option.or_none]

end Insert

end HashMap
