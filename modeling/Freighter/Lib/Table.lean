import Mathlib.Data.List.Nodup
import Mathlib.Order.Lattice

/-!
# Tables with a sequence and a unique key

A row has an id, which its table draws from a sequence, and a key that no other row has. A failed
or undone insertion does not give its id back.

* `insert`, `getOrInsert`, `update`, `delete`, `rollback`, with what each leaves;
* **`filter_key`**: a query by the key of a row gives this row alone.
-/

/-- A table: its rows under their ids, in the order they came in, and the next id. -/
structure Table {ρ κ : Type} (key : ℕ × ρ → κ) where
  rows : List (ℕ × ρ)
  next : ℕ
  lt_next : ∀ r ∈ rows, r.1 < next
  nodup_ids : (rows.map Prod.fst).Nodup
  nodup_keys : (rows.map key).Nodup

namespace Table

variable {ρ κ : Type} {key : ℕ × ρ → κ}

def ids (t : Table key) : List ℕ := t.rows.map Prod.fst

/-- A new table; ids count from one. -/
def empty : Table key := ⟨[], 1, by simp, List.nodup_nil, List.nodup_nil⟩

/-- An id that no row gets. -/
def skip (t : Table key) : Table key :=
  { t with next := t.next + 1, lt_next := fun r hr => Nat.lt_succ_of_lt (t.lt_next r hr) }

theorem nodup_map_concat {α β : Type} {f : α → β} {l : List α} {a : α} (h : (l.map f).Nodup)
    (ha : f a ∉ l.map f) : ((l ++ [a]).map f).Nodup := by
  rw [List.map_append, List.map_singleton]
  exact h.append (List.nodup_singleton _) (List.disjoint_singleton.mpr ha)

theorem next_notMem (t : Table key) : t.next ∉ t.ids := by
  intro h
  obtain ⟨r, hr, hid⟩ := List.mem_map.mp h
  exact absurd (t.lt_next r hr) (by rw [hid]; exact Nat.lt_irrefl _)

/-- A row whose key is new. -/
def add (t : Table key) (row : ρ) (h : key (t.next, row) ∉ t.rows.map key) : Table key where
  rows := t.rows ++ [(t.next, row)]
  next := t.next + 1
  lt_next r hr := by
    rcases List.mem_append.mp hr with hr | hr
    · exact Nat.lt_succ_of_lt (t.lt_next r hr)
    · rw [List.mem_singleton.mp hr]
      exact Nat.lt_succ_self _
  nodup_ids := nodup_map_concat t.nodup_ids t.next_notMem
  nodup_keys := nodup_map_concat t.nodup_keys h

/-- Change rows, but not their keys. -/
def update (t : Table key) (f : ℕ × ρ → ρ) (hf : ∀ r, key (r.1, f r) = key r) : Table key where
  rows := t.rows.map fun r => (r.1, f r)
  next := t.next
  lt_next r hr := by
    obtain ⟨s, hs, rfl⟩ := List.mem_map.mp hr
    exact t.lt_next s hs
  nodup_ids := by
    rw [List.map_map]
    exact t.nodup_ids
  nodup_keys := by
    have hkey : (key ∘ fun r => (r.1, f r)) = key := funext hf
    rw [List.map_map, hkey]
    exact t.nodup_keys

def delete (t : Table key) (p : ℕ × ρ → Bool) : Table key where
  rows := t.rows.filter fun r => !p r
  next := t.next
  lt_next r hr := t.lt_next r (List.mem_of_mem_filter hr)
  nodup_ids := t.nodup_ids.sublist (List.filter_sublist.map _)
  nodup_keys := t.nodup_keys.sublist (List.filter_sublist.map _)

/-- The table as it was before a transaction left `new`, but for the ids that were drawn. -/
def rollback (t new : Table key) : Table key :=
  { t with
    next := max t.next new.next
    lt_next := fun r hr => lt_of_lt_of_le (t.lt_next r hr) (le_max_left _ _) }

section Insert

variable [DecidableEq κ]

/-- Insert a row; `none` when its key is there. -/
def insert (t : Table key) (row : ρ) : Option ℕ × Table key :=
  if h : key (t.next, row) ∈ t.rows.map key then (none, t.skip) else (some t.next, t.add row h)

/-- Insert a row unless its key is there; the row that has the key now. -/
def getOrInsert (t : Table key) (row : ρ) : (ℕ × ρ) × Table key :=
  match h : t.rows.find? fun r => key r = key (t.next, row) with
  | some r => (r, t.skip)
  | none =>
    ((t.next, row), t.add row fun hm => by
      obtain ⟨r, hr, hk⟩ := List.mem_map.mp hm
      simpa [hk] using List.find?_eq_none.mp h r hr)

theorem insert_of_mem {t : Table key} {row : ρ} (h : key (t.next, row) ∈ t.rows.map key) :
    t.insert row = (none, t.skip) := dif_pos h

theorem insert_of_notMem {t : Table key} {row : ρ} (h : key (t.next, row) ∉ t.rows.map key) :
    t.insert row = (some t.next, t.add row h) := dif_neg h

/-- A table without a unique key takes every row. -/
theorem insert_primary (t : Table fun r : ℕ × ρ => r.1) (row : ρ) :
    ∃ t', t.insert row = (some t.next, t') ∧ t'.rows = t.rows ++ [(t.next, row)] :=
  ⟨_, insert_of_notMem t.next_notMem, rfl⟩

theorem getOrInsert_spec (t : Table key) (row : ρ) :
    ∃ r t', t.getOrInsert row = (r, t') ∧ key r = key (t.next, row) ∧ r ∈ t'.rows ∧
      (t'.rows = t.rows ∨ r = (t.next, row) ∧ t'.rows = t.rows ++ [r]) := by
  unfold getOrInsert
  split
  · rename_i r h
    refine ⟨r, t.skip, rfl, by simpa using List.find?_some h, ?_, Or.inl rfl⟩
    exact List.mem_of_find?_eq_some h
  · rename_i h
    exact ⟨_, _, rfl, rfl, List.mem_append_right _ (List.mem_singleton_self _),
      Or.inr ⟨rfl, rfl⟩⟩

end Insert

/-! ## Queries -/

@[simp] theorem rows_empty : (empty : Table key).rows = [] := rfl

@[simp] theorem rows_add (t : Table key) (row : ρ) (h : key (t.next, row) ∉ t.rows.map key) :
    (t.add row h).rows = t.rows ++ [(t.next, row)] := rfl

@[simp] theorem rows_update (t : Table key) (f : ℕ × ρ → ρ)
    (hf : ∀ r, key (r.1, f r) = key r) :
    (t.update f hf).rows = t.rows.map fun r => (r.1, f r) := rfl

theorem mem_delete {t : Table key} {p : ℕ × ρ → Bool} {r : ℕ × ρ} :
    r ∈ (t.delete p).rows ↔ r ∈ t.rows ∧ p r = false := by
  unfold delete
  rw [List.mem_filter, Bool.not_eq_true']

/-- A query for the value of an element that no other one has. -/
theorem filter_eq_singleton {α β : Type} [DecidableEq β] {f : α → β} {l : List α}
    (h : (l.map f).Nodup) {a : α} (ha : a ∈ l) : l.filter (fun b => f b = f a) = [a] := by
  induction l with
  | nil => cases ha
  | cons b l ih =>
    rw [List.map_cons, List.nodup_cons] at h
    rcases List.mem_cons.mp ha with rfl | hm
    · rw [List.filter_cons_of_pos (by simp), List.filter_eq_nil_iff.mpr]
      intro c hc
      have hne : f c ≠ f a := fun e => h.1 (List.mem_map.mpr ⟨c, hc, e⟩)
      simpa using hne
    · have hne : f b ≠ f a := fun e => h.1 (List.mem_map.mpr ⟨a, hm, e.symm⟩)
      rw [List.filter_cons_of_neg (by simpa using hne), ih h.2 hm]

variable {t : Table key} {r s : ℕ × ρ}

theorem filter_id (h : r ∈ t.rows) : t.rows.filter (fun s => s.1 = r.1) = [r] :=
  filter_eq_singleton t.nodup_ids h

/-- **A query by the key of a row.** -/
theorem filter_key [DecidableEq κ] (h : r ∈ t.rows) :
    t.rows.filter (fun s => key s = key r) = [r] :=
  filter_eq_singleton t.nodup_keys h

theorem eq_of_id (hr : r ∈ t.rows) (hs : s ∈ t.rows) (h : r.1 = s.1) : r = s :=
  List.inj_on_of_nodup_map t.nodup_ids hr hs h

theorem eq_of_key (hr : r ∈ t.rows) (hs : s ∈ t.rows) (h : key r = key s) : r = s :=
  List.inj_on_of_nodup_map t.nodup_keys hr hs h

end Table
