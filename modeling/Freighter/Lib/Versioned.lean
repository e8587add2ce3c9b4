import Freighter.Lib.Table
import Mathlib.Logic.Function.Basic

/-!
# Tables with uncommitted changes

A table that two transactions change at a time. Each sees the committed rows and its own changes.
An insertion with a unique key has to wait when the other transaction has inserted a row with this
key; an update has to wait when the other has changed the row.

* `Versioned`: committed rows, the changes of each transaction, and the next id of the sequence;
* `view`, `insert`, `upsert`, `put`, `drop`, `commit`, `abort`;
* `Numbered`: an id says what its row is about; `Keyed`: the keys that each transaction needs and
  the rows it changes, where a key that both need is there.
* **`Keyed.getOrCreate`**, **`Keyed.upsert`**, **`Keyed.commit`**: what this is good for;
* `Owned`: rows that a transaction has to itself, with **`Owned.insert`** and **`Owned.commit`**.
-/

/-- What a transaction has done: new rows and new versions of rows, and rows it has deleted. -/
structure Changes (ρ : Type) where
  puts : List (ℕ × ρ) := []
  drops : List ℕ := []

structure Versioned (ρ : Type) where
  rows : List (ℕ × ρ)
  changes : Bool → Changes ρ
  next : ℕ

namespace Versioned

variable {ρ κ γ : Type}

/-- A table that no transaction has changed. -/
def ofRows (rows : List (ℕ × ρ)) (next : ℕ) : Versioned ρ := ⟨rows, fun _ => {}, next⟩

def ids (rows : List (ℕ × ρ)) : List ℕ := rows.map Prod.fst

/-- What a transaction sees. -/
def view (t : Versioned ρ) (i : Bool) : List (ℕ × ρ) :=
  (t.rows.filter fun r => r.1 ∉ ids (t.changes i).puts ∧ r.1 ∉ (t.changes i).drops) ++
    (t.changes i).puts.filter fun r => r.1 ∉ (t.changes i).drops

def change (t : Versioned ρ) (i : Bool) (c : Changes ρ) : Versioned ρ :=
  { t with changes := Function.update t.changes i c }

/-- An id that no row gets. -/
def skip (t : Versioned ρ) : Versioned ρ := { t with next := t.next + 1 }

def add (t : Versioned ρ) (i : Bool) (row : ρ) : Versioned ρ :=
  (t.change i { t.changes i with puts := (t.changes i).puts ++ [(t.next, row)] }).skip

/-- A new version of a row. -/
def put (t : Versioned ρ) (i : Bool) (r : ℕ × ρ) : Versioned ρ :=
  t.change i { t.changes i with puts := ((t.changes i).puts.filter (·.1 ≠ r.1)) ++ [r] }

def drop (t : Versioned ρ) (i : Bool) (dropped : List ℕ) : Versioned ρ :=
  t.change i { t.changes i with drops := (t.changes i).drops ++ dropped }

def commit (t : Versioned ρ) (i : Bool) : Versioned ρ :=
  { t.change i {} with rows := t.view i }

def abort (t : Versioned ρ) (i : Bool) : Versioned ρ := t.change i {}

/-- The other transaction has changed the row. -/
def held (t : Versioned ρ) (i : Bool) (id : ℕ) : Bool :=
  id ∈ ids (t.changes !i).puts || id ∈ (t.changes !i).drops

section Keys

variable [DecidableEq κ] (key : ρ → κ)

/-- The other transaction has inserted a row with the key. -/
def busy (t : Versioned ρ) (i : Bool) (k : κ) : Bool :=
  (t.changes !i).puts.any fun r => key r.2 = k && r.1 ∉ ids t.rows

/-- The other transaction has changed the row with the key. -/
def updating (t : Versioned ρ) (i : Bool) (k : κ) : Bool :=
  t.rows.any fun r => key r.2 = k && t.held i r.1

def withKey (rows : List (ℕ × ρ)) (k : κ) : List (ℕ × ρ) := rows.filter fun r => key r.2 = k

/-- Insert a row unless its key is there, with the id it gets; `none` when this has to wait, also
for a change of the row with the key when `strict` is set. -/
def insert (strict : Bool) (t : Versioned ρ) (i : Bool) (row : ρ) :
    Option (Option ℕ × Versioned ρ) :=
  if t.busy key i (key row) || (strict && t.updating key i (key row)) then none
  else if (withKey key (t.view i) (key row)).isEmpty then some (some t.next, t.add i row)
  else some (none, t.skip)

/-- Insert a row, or lock the row with its key, and give the row. -/
def upsert (t : Versioned ρ) (i : Bool) (row : ρ) : Option ((ℕ × ρ) × Versioned ρ) :=
  if t.busy key i (key row) || t.updating key i (key row) then none
  else
    match withKey key (t.view i) (key row) with
    | [] => some ((t.next, row), t.add i row)
    | r :: _ => some (r, (t.put i r).skip)

end Keys

/-! ## What a transaction sees -/

variable {t u v : Versioned ρ} {i : Bool} {r : ℕ × ρ} {row : ρ}

/-- A row that is committed, or that a transaction has put. -/
def Has (t : Versioned ρ) (r : ℕ × ρ) : Prop := r ∈ t.rows ∨ ∃ i, r ∈ (t.changes i).puts

theorem mem_view : r ∈ t.view i ↔
    (r ∈ t.rows ∧ r.1 ∉ ids (t.changes i).puts ∨ r ∈ (t.changes i).puts) ∧
      r.1 ∉ (t.changes i).drops := by
  simp only [view, List.mem_append, List.mem_filter, decide_eq_true_eq]
  tauto

theorem has_of_mem_view (h : r ∈ t.view i) : t.Has r := by
  rcases (mem_view.mp h).1 with ⟨hrow, -⟩ | hput
  · exact Or.inl hrow
  · exact Or.inr ⟨i, hput⟩

theorem mem_ids (h : r ∈ t.rows) : r.1 ∈ ids t.rows := List.mem_map_of_mem h

@[simp] theorem changes_add_self : (t.add i row).changes i =
    { t.changes i with puts := (t.changes i).puts ++ [(t.next, row)] } := Function.update_self ..

@[simp] theorem changes_add_not : (t.add i row).changes (!i) = t.changes !i :=
  Function.update_of_ne (by simp) ..

@[simp] theorem changes_put_self : (t.put i r).changes i =
    { t.changes i with puts := ((t.changes i).puts.filter (·.1 ≠ r.1)) ++ [r] } :=
  Function.update_self ..

@[simp] theorem changes_put_not : (t.put i r).changes (!i) = t.changes !i :=
  Function.update_of_ne (by simp) ..

@[simp] theorem changes_drop_not {dropped : List ℕ} :
    (t.drop i dropped).changes (!i) = t.changes !i := Function.update_of_ne (by simp) ..

@[simp] theorem changes_commit_self : (t.commit i).changes i = {} := Function.update_self ..

@[simp] theorem changes_commit_not : (t.commit i).changes (!i) = t.changes !i :=
  Function.update_of_ne (by simp) ..

@[simp] theorem changes_skip : t.skip.changes = t.changes := rfl

@[simp] theorem rows_skip : t.skip.rows = t.rows := rfl

/-- A change of one transaction that puts at most the row `x` more. -/
theorem has_change {c : Changes ρ} {x : ℕ × ρ} (hc : ∀ r ∈ c.puts, r ∈ (t.changes i).puts ∨ r = x)
    (h : (t.change i c).Has r) : t.Has r ∨ r = x := by
  rcases h with hrow | ⟨j, hput⟩
  · exact Or.inl (Or.inl hrow)
  · by_cases hj : j = i
    · subst hj
      simp only [change, Function.update_self] at hput
      exact (hc r hput).imp_left fun h => Or.inr ⟨j, h⟩
    · simp only [change, Function.update_of_ne hj] at hput
      exact Or.inl (Or.inr ⟨j, hput⟩)

theorem has_add (h : (t.add i row).Has r) : t.Has r ∨ r = (t.next, row) :=
  has_change (by simp) h

theorem has_add_of_has (h : t.Has r) : (t.add i row).Has r := by
  rcases h with hrow | ⟨j, hput⟩
  · exact Or.inl hrow
  · refine Or.inr ⟨j, ?_⟩
    by_cases hj : j = i
    · rw [hj] at hput ⊢
      rw [changes_add_self]
      exact List.mem_append_left _ hput
    · rwa [Bool.eq_not.mpr hj, changes_add_not, ← Bool.eq_not.mpr hj]

theorem has_put {x : ℕ × ρ} (h : (t.put i x).Has r) : t.Has r ∨ r = x := by
  refine has_change (fun r hr => ?_) h
  rcases List.mem_append.mp hr with hr | hr
  · exact Or.inl (List.mem_of_mem_filter hr)
  · exact Or.inr (List.mem_singleton.mp hr)

theorem puts_drop {dropped : List ℕ} (j : Bool) :
    ((t.drop i dropped).changes j).puts = (t.changes j).puts := by
  by_cases hj : j = i
  · rw [hj]
    simp [drop, change]
  · simp [drop, change, Function.update_of_ne hj]

theorem has_drop {dropped : List ℕ} : (t.drop i dropped).Has r ↔ t.Has r := by
  simp only [Has, puts_drop]
  rfl

theorem has_commit (h : (t.commit i).Has r) : t.Has r := by
  rcases h with hrow | ⟨j, hput⟩
  · exact has_of_mem_view hrow
  · by_cases hj : j = i
    · subst hj
      simp at hput
    · have hput' : r ∈ (t.changes j).puts := by
        simpa [commit, change, Function.update_of_ne hj] using hput
      exact Or.inr ⟨j, hput'⟩

/-! ## Ids -/

/-- Every row of `t`, or a new version of it, is in `u`. -/
def Keeps (f : ρ → γ) (t u : Versioned ρ) : Prop :=
  ∀ r, t.Has r → ∃ r', u.Has r' ∧ r'.1 = r.1 ∧ f r'.2 = f r.2

/-- An id has at most one row, and says what `f` is of its versions. -/
structure Numbered (f : ρ → γ) (t : Versioned ρ) : Prop where
  nodup_rows : (ids t.rows).Nodup
  nodup_puts : ∀ i, (ids (t.changes i).puts).Nodup
  lt_next : ∀ r, t.Has r → r.1 < t.next
  drops_lt_next : ∀ i, ∀ id ∈ (t.changes i).drops, id < t.next
  eq_of_id : ∀ r r', t.Has r → t.Has r' → r.1 = r'.1 → f r.2 = f r'.2

section Numbered

variable {f : ρ → γ}

theorem numbered_ofRows {rows : List (ℕ × ρ)} {next : ℕ} (hnodup : (ids rows).Nodup)
    (hlt : ∀ r ∈ rows, r.1 < next) : Numbered f (ofRows rows next) where
  nodup_rows := hnodup
  nodup_puts _ := List.nodup_nil
  lt_next r h := by
    rcases h with hrow | ⟨i, hput⟩
    · exact hlt r hrow
    · cases hput
  drops_lt_next _ _ h := by cases h
  eq_of_id r r' h h' hid := by
    rcases h with hrow | ⟨i, hput⟩
    · rcases h' with hrow' | ⟨i, hput⟩
      · rw [List.inj_on_of_nodup_map hnodup hrow hrow' hid]
      · cases hput
    · cases hput

theorem nodup_ids_filter {rows : List (ℕ × ρ)} (h : (ids rows).Nodup) (p : ℕ × ρ → Bool) :
    (ids (rows.filter p)).Nodup := h.sublist (List.filter_sublist.map _)

theorem Numbered.nodup_view (h : Numbered f t) (i : Bool) : (ids (t.view i)).Nodup := by
  unfold view ids
  rw [List.map_append]
  refine (nodup_ids_filter h.nodup_rows _).append (nodup_ids_filter (h.nodup_puts i) _) ?_
  intro id hrow hput
  obtain ⟨r, hr, rfl⟩ := List.mem_map.mp hrow
  obtain ⟨r', hr', hid⟩ := List.mem_map.mp hput
  have hnot := (List.mem_filter.mp hr).2
  simp only [decide_eq_true_eq] at hnot
  exact hnot.1 (hid ▸ List.mem_map_of_mem (List.mem_of_mem_filter hr'))

theorem Numbered.skip (h : Numbered f t) : Numbered f t.skip :=
  ⟨h.nodup_rows, h.nodup_puts, fun r hr => Nat.lt_succ_of_lt (h.lt_next r hr),
    fun i id hid => Nat.lt_succ_of_lt (h.drops_lt_next i id hid), h.eq_of_id⟩

theorem Numbered.next_ne (h : Numbered f t) (hr : t.Has r) : r.1 ≠ t.next :=
  Nat.ne_of_lt (h.lt_next r hr)

/-- A change of one transaction that keeps the ids. -/
theorem Numbered.change (h : Numbered f t) {c : Changes ρ} {x : ℕ × ρ}
    (hputs : ∀ r ∈ c.puts, r ∈ (t.changes i).puts ∨ r = x) (hnodup : (ids c.puts).Nodup)
    (hx : x.1 < t.next) (hfx : ∀ r, t.Has r → r.1 = x.1 → f r.2 = f x.2)
    (hdrops : ∀ id ∈ c.drops, id < t.next) : Numbered f (t.change i c) := by
  refine ⟨h.nodup_rows, ?_, fun r hr => ?_, ?_, fun r r' hr hr' hid => ?_⟩
  · exact (Function.forall_update_iff t.changes fun _ c => (ids c.puts).Nodup).mpr
      ⟨hnodup, fun j _ => h.nodup_puts j⟩
  · rcases has_change hputs hr with hr | rfl
    · exact h.lt_next r hr
    · exact hx
  · exact (Function.forall_update_iff t.changes fun _ c => ∀ id ∈ c.drops, id < t.next).mpr
      ⟨hdrops, fun j _ => h.drops_lt_next j⟩
  · rcases has_change hputs hr with hr | rfl <;> rcases has_change hputs hr' with hr' | rfl
    · exact h.eq_of_id r r' hr hr' hid
    · exact hfx r hr hid
    · exact (hfx r' hr' hid.symm).symm
    · rfl

theorem Numbered.add (h : Numbered f t) (i : Bool) (row : ρ) : Numbered f (t.add i row) := by
  have hnext : ∀ r ∈ (t.changes i).puts, r.1 ≠ t.next := fun r hr => h.next_ne (Or.inr ⟨i, hr⟩)
  have hfresh : t.next ∉ ids (t.changes i).puts := by
    intro hmem
    obtain ⟨r, hr, hid⟩ := List.mem_map.mp hmem
    exact hnext r hr hid
  refine Numbered.change (t := t.skip) (x := (t.next, row)) h.skip (by simp) ?_
    (Nat.lt_succ_self _) (fun r hr hid => absurd hid (h.next_ne hr)) (h.skip.drops_lt_next i)
  unfold ids
  rw [List.map_append]
  exact (h.nodup_puts i).append (List.nodup_singleton _) (List.disjoint_singleton.mpr hfresh)

/-- A new version of a row that the transaction sees. -/
theorem Numbered.put (h : Numbered f t) {x : ℕ × ρ} (hr : t.Has r) (hid : x.1 = r.1)
    (hf : f x.2 = f r.2) : Numbered f (t.put i x) := by
  refine Numbered.change (x := x) h (fun r' hr' => ?_) ?_ (hid ▸ h.lt_next r hr)
    (fun r' hr' hid' => ?_) (h.drops_lt_next i)
  · rcases List.mem_append.mp hr' with hr' | hr'
    · exact Or.inl (List.mem_of_mem_filter hr')
    · exact Or.inr (List.mem_singleton.mp hr')
  · unfold ids
    rw [List.map_append]
    refine (nodup_ids_filter (h.nodup_puts i) _).append (List.nodup_singleton _) ?_
    intro id hmem hx
    obtain ⟨r', hr', rfl⟩ := List.mem_map.mp hmem
    have hne := (List.mem_filter.mp hr').2
    simp only [decide_eq_true_eq] at hne
    exact hne (List.mem_singleton.mp hx)
  · rw [h.eq_of_id r' r hr' hr (hid'.trans hid), hf]

theorem Numbered.drop (h : Numbered f t) {dropped : List ℕ} (hlt : ∀ id ∈ dropped, id < t.next) :
    Numbered f (t.drop i dropped) where
  nodup_rows := h.nodup_rows
  nodup_puts j := by
    rw [puts_drop]
    exact h.nodup_puts j
  lt_next r hr := h.lt_next r (has_drop.mp hr)
  drops_lt_next := by
    refine (Function.forall_update_iff t.changes fun _ c => ∀ id ∈ c.drops, id < t.next).mpr
      ⟨fun id hid => ?_, fun j _ => h.drops_lt_next j⟩
    exact (List.mem_append.mp hid).elim (h.drops_lt_next i id) (hlt id)
  eq_of_id r r' hr hr' := h.eq_of_id r r' (has_drop.mp hr) (has_drop.mp hr')

theorem Numbered.commit (h : Numbered f t) (i : Bool) : Numbered f (t.commit i) where
  nodup_rows := h.nodup_view i
  nodup_puts := (Function.forall_update_iff t.changes fun _ c => (ids c.puts).Nodup).mpr
    ⟨List.nodup_nil, fun j _ => h.nodup_puts j⟩
  lt_next r hr := h.lt_next r (has_commit hr)
  drops_lt_next := by
    refine (Function.forall_update_iff t.changes fun _ c => ∀ id ∈ c.drops, id < t.next).mpr
      ⟨fun id hid => ?_, fun j _ => h.drops_lt_next j⟩
    cases hid
  eq_of_id r r' hr hr' := h.eq_of_id r r' (has_commit hr) (has_commit hr')

/-- A transaction that deletes nothing sees a version of every committed row. -/
theorem Numbered.exists_view (h : Numbered f t) (hdrops : (t.changes i).drops = [])
    (hr : r ∈ t.rows) : ∃ r' ∈ t.view i, r'.1 = r.1 ∧ f r'.2 = f r.2 := by
  have hnot : ∀ id, id ∉ (t.changes i).drops := fun id => hdrops ▸ List.not_mem_nil
  by_cases hput : r.1 ∈ ids (t.changes i).puts
  · obtain ⟨r', hr', hid⟩ := List.mem_map.mp hput
    exact ⟨r', mem_view.mpr ⟨Or.inr hr', hnot _⟩, hid,
      h.eq_of_id r' r (Or.inr ⟨i, hr'⟩) (Or.inl hr) hid⟩
  · exact ⟨r, mem_view.mpr ⟨Or.inl ⟨hr, hput⟩, hnot _⟩, rfl, rfl⟩

theorem Numbered.keeps_commit (h : Numbered f t) (hdrops : (t.changes i).drops = []) :
    Keeps f t (t.commit i) := by
  intro r hr
  rcases hr with hrow | ⟨j, hput⟩
  · obtain ⟨r', hr', hid, hf⟩ := h.exists_view hdrops hrow
    exact ⟨r', Or.inl hr', hid, hf⟩
  · by_cases hj : j = i
    · exact ⟨r, Or.inl (mem_view.mpr ⟨Or.inr (hj ▸ hput), hdrops ▸ List.not_mem_nil⟩), rfl, rfl⟩
    · refine ⟨r, Or.inr ⟨j, ?_⟩, rfl, rfl⟩
      rwa [Bool.eq_not.mpr hj, changes_commit_not, ← Bool.eq_not.mpr hj]

end Numbered

/-! ## Keys that transactions share -/

/-- A table whose rows two transactions get or create by their keys. The keys of `base` were there
before; a transaction puts rows with keys it needs, and of the rows that are there it changes those
with keys it touches. -/
structure Keyed (key : ρ → κ) (base : κ → Prop) (needs touches : Bool → κ → Prop)
    (t : Versioned ρ) : Prop where
  numbered : Numbered key t
  kept : ∀ k, base k → ∃ r ∈ t.rows, key r.2 = k
  no_drops : ∀ i, (t.changes i).drops = []
  needs : ∀ i, ∀ r ∈ (t.changes i).puts, needs i (key r.2)
  touches : ∀ i, ∀ r ∈ (t.changes i).puts, r.1 ∈ ids t.rows → touches i (key r.2)
  eq_of_key : ∀ r r', t.Has r → t.Has r' → key r.2 = key r'.2 → r.1 = r'.1

/-- What the other transaction does to a table: it leaves the changes of transaction `i`, keeps the
rows or new versions of them, and commits rows with keys that it needs. -/
structure Grows (key : ρ → κ) (needs : Bool → κ → Prop) (i : Bool) (t u : Versioned ρ) :
    Prop where
  changes : u.changes i = t.changes i
  kept : Keeps key t u
  rows : ∀ r ∈ t.rows, ∃ r' ∈ u.rows, r'.1 = r.1 ∧ key r'.2 = key r.2
  new : ∀ r ∈ u.rows, (∃ r' ∈ t.rows, key r'.2 = key r.2) ∨ needs (!i) (key r.2)

section Keyed

variable {key : ρ → κ} {base : κ → Prop} {needs touches : Bool → κ → Prop}

/-- A row with an id and a key is kept under them. -/
theorem Keeps.named (h : Keeps key t u) {id : ℕ} {k : κ}
    (hr : ∃ r, t.Has r ∧ r.1 = id ∧ key r.2 = k) : ∃ r, u.Has r ∧ r.1 = id ∧ key r.2 = k := by
  obtain ⟨r, hr, hid, hkey⟩ := hr
  obtain ⟨r', hr', hid', hkey'⟩ := h r hr
  exact ⟨r', hr', hid'.trans hid, hkey'.trans hkey⟩

theorem Keeps.of_has (h : ∀ r, t.Has r → u.Has r) : Keeps key t u :=
  fun r hr => ⟨r, h r hr, rfl, rfl⟩

theorem Keeps.trans (h : Keeps key t u) (h' : Keeps key u v) : Keeps key t v := by
  intro r hr
  obtain ⟨r', hr', hid, hkey⟩ := h r hr
  obtain ⟨r'', hr'', hid', hkey'⟩ := h' r' hr'
  exact ⟨r'', hr'', hid'.trans hid, hkey'.trans hkey⟩

/-- A change of one transaction, as the other sees it. -/
theorem Grows.of_rows (hchanges : u.changes i = t.changes i) (hrows : u.rows = t.rows)
    (hkept : Keeps key t u) : Grows key needs i t u :=
  ⟨hchanges, hkept, fun r hr => ⟨r, hrows ▸ hr, rfl, rfl⟩,
    fun r hr => Or.inl ⟨r, hrows ▸ hr, rfl⟩⟩

theorem Grows.refl (i : Bool) (t : Versioned ρ) : Grows key needs i t t :=
  .of_rows rfl rfl (.of_has fun _ => id)

theorem Grows.skip (i : Bool) (t : Versioned ρ) : Grows key needs i t t.skip :=
  .of_rows rfl rfl (.of_has fun _ => id)

theorem Grows.add (t : Versioned ρ) (i : Bool) (row : ρ) :
    Grows key needs (!i) t (t.add i row) :=
  .of_rows changes_add_not rfl (.of_has fun _ => has_add_of_has)

theorem Grows.trans (h : Grows key needs i t u) (h' : Grows key needs i u v) :
    Grows key needs i t v := by
  refine ⟨h'.changes.trans h.changes, h.kept.trans h'.kept, fun r hr => ?_, fun r hr => ?_⟩
  · obtain ⟨r', hr', hid, hkey⟩ := h.rows r hr
    obtain ⟨r'', hr'', hid', hkey'⟩ := h'.rows r' hr'
    exact ⟨r'', hr'', hid'.trans hid, hkey'.trans hkey⟩
  · rcases h'.new r hr with ⟨r', hr', hkey⟩ | hneeds
    · rw [← hkey]
      exact h.new r' hr'
    · exact Or.inr hneeds

theorem Keyed.mem_view (h : Keyed key base needs touches t) :
    r ∈ t.view i ↔ r ∈ t.rows ∧ r.1 ∉ ids (t.changes i).puts ∨ r ∈ (t.changes i).puts := by
  rw [Versioned.mem_view, h.no_drops i]
  simp

/-- A transaction sees a version of every committed row. -/
theorem Keyed.exists_view (h : Keyed key base needs touches t) (i : Bool) (hr : r ∈ t.rows) :
    ∃ r' ∈ t.view i, r'.1 = r.1 ∧ key r'.2 = key r.2 :=
  h.numbered.exists_view (h.no_drops i) hr

/-- What a transaction sees it goes on to see. -/
theorem Grows.view (hgrow : Grows key needs i t u) (hu : Keyed key base needs touches u)
    (hr : r ∈ t.view i) : ∃ r' ∈ u.view i, r'.1 = r.1 ∧ key r'.2 = key r.2 := by
  rcases (Versioned.mem_view.mp hr).1 with ⟨hrow, -⟩ | hput
  · obtain ⟨r', hr', hid, hkey⟩ := hgrow.rows r hrow
    obtain ⟨r'', hr'', hid', hkey'⟩ := hu.exists_view i hr'
    exact ⟨r'', hr'', hid'.trans hid, hkey'.trans hkey⟩
  · exact ⟨r, hu.mem_view.mpr (Or.inr (hgrow.changes ▸ hput)), rfl, rfl⟩

theorem Keyed.skip (h : Keyed key base needs touches t) : Keyed key base needs touches t.skip :=
  ⟨h.numbered.skip, h.kept, h.no_drops, h.needs, h.touches, h.eq_of_key⟩

theorem keyed_ofRows {rows : List (ℕ × ρ)} {next : ℕ} (hnodup : (ids rows).Nodup)
    (hlt : ∀ r ∈ rows, r.1 < next) (hkeys : (rows.map fun r => key r.2).Nodup)
    (hbase : ∀ k, base k → ∃ r ∈ rows, key r.2 = k) :
    Keyed key base needs touches (ofRows rows next) where
  numbered := numbered_ofRows hnodup hlt
  kept := hbase
  no_drops _ := rfl
  needs _ _ h := by cases h
  touches _ _ h := by cases h
  eq_of_key r r' hr hr' hkey := by
    rcases hr with hrow | ⟨i, hput⟩
    · rcases hr' with hrow' | ⟨i, hput⟩
      · rw [List.inj_on_of_nodup_map hkeys hrow hrow' hkey]
      · cases hput
    · cases hput

section Share

variable (hshare : ∀ i k, needs i k → needs (!i) k → base k)

include hshare

/-- A row that the other transaction has put, with a key that both need, is a version of a
committed row. -/
theorem Keyed.mem_ids_of_put (h : Keyed key base needs touches t) (hk : needs i (key r.2))
    (hr : r ∈ (t.changes !i).puts) : r.1 ∈ ids t.rows := by
  obtain ⟨r', hr', hkey⟩ := h.kept _ (hshare i _ hk (h.needs _ r hr))
  rw [h.eq_of_key r r' (Or.inr ⟨_, hr⟩) (Or.inl hr') hkey.symm]
  exact mem_ids hr'

/-- What a transaction does not see of a key that it needs is not there. -/
theorem Keyed.absent (h : Keyed key base needs touches t) {k : κ} (hk : needs i k)
    (hview : ∀ r ∈ t.view i, key r.2 ≠ k) (hr : t.Has r) : key r.2 ≠ k := by
  have hrows : ∀ r ∈ t.rows, key r.2 ≠ k := by
    intro r hr hkey
    obtain ⟨r', hr', -, hkey'⟩ := h.exists_view i hr
    exact hview r' hr' (hkey'.trans hkey)
  rintro rfl
  rcases hr with hrow | ⟨j, hput⟩
  · exact hrows r hrow rfl
  · by_cases hj : j = i
    · subst hj
      exact hview r (h.mem_view.mpr (Or.inr hput)) rfl
    · rw [Bool.eq_not.mpr hj] at hput
      obtain ⟨r', hr', hid⟩ := List.mem_map.mp (h.mem_ids_of_put hshare hk hput)
      exact hrows r' hr' (h.numbered.eq_of_id r' r (Or.inl hr') (Or.inr ⟨_, hput⟩) hid)

theorem Keyed.add (h : Keyed key base needs touches t) (hk : needs i (key row))
    (hview : ∀ r ∈ t.view i, key r.2 ≠ key row) :
    Keyed key base needs touches (t.add i row) := by
  have habsent : ∀ r, t.Has r → key r.2 ≠ key row := fun r hr => h.absent hshare hk hview hr
  refine ⟨h.numbered.add i row, h.kept, ?_, ?_, ?_, fun r r' hr hr' hkey => ?_⟩
  · exact (Function.forall_update_iff t.changes fun _ c => c.drops = []).mpr
      ⟨h.no_drops i, fun j _ => h.no_drops j⟩
  · refine (Function.forall_update_iff t.changes fun j c => ∀ r ∈ c.puts, needs j (key r.2)).mpr
      ⟨fun r hr => ?_, fun j _ => h.needs j⟩
    rcases List.mem_append.mp hr with hr | hr
    · exact h.needs i r hr
    · rw [List.mem_singleton.mp hr]
      exact hk
  · refine (Function.forall_update_iff t.changes fun j c => ∀ r ∈ c.puts, r.1 ∈ ids t.rows →
      touches j (key r.2)).mpr ⟨fun r hr hid => ?_, fun j _ => h.touches j⟩
    rcases List.mem_append.mp hr with hr | hr
    · exact h.touches i r hr hid
    · rw [List.mem_singleton.mp hr] at hid
      obtain ⟨r', hr', hid'⟩ := List.mem_map.mp hid
      exact absurd hid' (h.numbered.next_ne (Or.inl hr'))
  · rcases has_add hr with ha | rfl <;> rcases has_add hr' with hb | rfl
    · exact h.eq_of_key r r' ha hb hkey
    · exact absurd hkey (habsent r ha)
    · exact absurd hkey.symm (habsent r' hb)
    · rfl

omit hshare in
/-- A new version of a row that the transaction may change. -/
theorem Keyed.put (h : Keyed key base needs touches t) {x : ℕ × ρ} (hr : r ∈ t.view i)
    (hid : x.1 = r.1) (hkey : key x.2 = key r.2) (hk : needs i (key r.2))
    (htouch : touches i (key r.2)) : Keyed key base needs touches (t.put i x) := by
  have hhas := has_of_mem_view hr
  refine ⟨h.numbered.put hhas hid hkey, h.kept, ?_, ?_, ?_, fun a b ha hb hab => ?_⟩
  · exact (Function.forall_update_iff t.changes fun _ c => c.drops = []).mpr
      ⟨h.no_drops i, fun j _ => h.no_drops j⟩
  · refine (Function.forall_update_iff t.changes fun j c => ∀ r ∈ c.puts, needs j (key r.2)).mpr
      ⟨fun r' hr' => ?_, fun j _ => h.needs j⟩
    rcases List.mem_append.mp hr' with hr' | hr'
    · exact h.needs i r' (List.mem_of_mem_filter hr')
    · rw [List.mem_singleton.mp hr', hkey]
      exact hk
  · refine (Function.forall_update_iff t.changes fun j c => ∀ r ∈ c.puts, r.1 ∈ ids t.rows →
      touches j (key r.2)).mpr ⟨fun r' hr' hid' => ?_, fun j _ => h.touches j⟩
    rcases List.mem_append.mp hr' with hr' | hr'
    · exact h.touches i r' (List.mem_of_mem_filter hr') hid'
    · rw [List.mem_singleton.mp hr', hkey]
      exact htouch
  · rcases has_put ha with ha' | rfl <;> rcases has_put hb with hb' | rfl
    · exact h.eq_of_key a b ha' hb' hab
    · exact (h.eq_of_key a r ha' hhas (hab.trans hkey)).trans hid.symm
    · exact hid.trans (h.eq_of_key r b hhas hb' (hkey.symm.trans hab))
    · rfl

omit hshare in
theorem Keyed.grows_put (h : Keyed key base needs touches t) {x : ℕ × ρ} (hr : r ∈ t.view i)
    (hid : x.1 = r.1) (hkey : key x.2 = key r.2) : Grows key needs (!i) t (t.put i x) := by
  refine .of_rows changes_put_not rfl fun a ha => ?_
  by_cases hax : a.1 = x.1
  · refine ⟨x, Or.inr ⟨i, ?_⟩, hax.symm, ?_⟩
    · rw [changes_put_self]
      exact List.mem_append_right _ (List.mem_singleton_self x)
    · rw [hkey]
      exact h.numbered.eq_of_id r a (has_of_mem_view hr) ha (hid.symm.trans hax.symm)
  · refine ⟨a, ha.imp_right ?_, rfl, rfl⟩
    rintro ⟨j, hput⟩
    refine ⟨j, ?_⟩
    by_cases hj : j = i
    · rw [hj] at hput ⊢
      rw [changes_put_self]
      exact List.mem_append_left _ (List.mem_filter.mpr ⟨hput, decide_eq_true hax⟩)
    · rwa [Bool.eq_not.mpr hj, changes_put_not, ← Bool.eq_not.mpr hj]

/-- **A commit** leaves the table keyed, and grows it for the other transaction. -/
theorem Keyed.commit (h : Keyed key base needs touches t) (i : Bool) :
    Keyed key base needs touches (t.commit i) ∧ Grows key needs (!i) t (t.commit i) := by
  refine ⟨⟨h.numbered.commit i, fun k hk => ?_, ?_, ?_, ?_, fun r r' hr hr' =>
    h.eq_of_key r r' (has_commit hr) (has_commit hr')⟩, changes_commit_not,
    h.numbered.keeps_commit (h.no_drops i), fun r hr => ?_, fun r hr => ?_⟩
  · obtain ⟨r, hr, hkey⟩ := h.kept k hk
    obtain ⟨r', hr', -, hkey'⟩ := h.exists_view i hr
    exact ⟨r', hr', hkey'.trans hkey⟩
  · exact (Function.forall_update_iff t.changes fun _ c => c.drops = []).mpr
      ⟨rfl, fun j _ => h.no_drops j⟩
  · refine (Function.forall_update_iff t.changes fun j c => ∀ r ∈ c.puts, needs j (key r.2)).mpr
      ⟨fun r hr => ?_, fun j _ => h.needs j⟩
    cases hr
  · refine (Function.forall_update_iff t.changes fun j c => ∀ r ∈ c.puts, r.1 ∈ ids (t.view i) →
      touches j (key r.2)).mpr ⟨fun r hr => ?_, fun j hj r hr hid => ?_⟩
    · cases hr
    obtain ⟨r', hr', hid'⟩ := List.mem_map.mp hid
    refine h.touches j r hr ?_
    rcases h.mem_view.mp hr' with ⟨hrow, -⟩ | hput
    · exact hid' ▸ mem_ids hrow
    · -- both have put a version of the row, so both need its key
      have hkey := h.numbered.eq_of_id r' r (Or.inr ⟨i, hput⟩) (Or.inr ⟨j, hr⟩) hid'
      have hneeds : needs i (key r.2) := hkey ▸ h.needs i r' hput
      rw [Bool.eq_not.mpr hj] at hr
      exact h.mem_ids_of_put hshare hneeds hr
  · exact h.exists_view i hr
  · rcases h.mem_view.mp hr with ⟨hrow, -⟩ | hput
    · exact Or.inl ⟨r, hrow, rfl⟩
    · exact Or.inr ((Bool.not_not i).symm ▸ h.needs i r hput)

/-! ## What the operations give -/

section Operations

variable [DecidableEq κ]

theorem Keyed.not_busy (h : Keyed key base needs touches t) {k : κ} (hk : needs i k) :
    t.busy key i k = false := by
  refine List.any_eq_false.mpr fun r hr => ?_
  rw [Bool.and_eq_true, decide_eq_true_eq, decide_eq_true_eq]
  rintro ⟨rfl, hnew⟩
  exact hnew (h.mem_ids_of_put hshare hk hr)

omit hshare in
theorem Keyed.touches_of_updating (h : Keyed key base needs touches t) {k : κ}
    (hup : t.updating key i k = true) : touches (!i) k ∧ (t.changes !i).puts ≠ [] := by
  obtain ⟨r, hr, hheld⟩ := List.any_eq_true.mp hup
  rw [Bool.and_eq_true, decide_eq_true_eq, held, h.no_drops] at hheld
  obtain ⟨rfl, hheld⟩ := hheld
  have hput : r.1 ∈ ids (t.changes !i).puts := by simpa using hheld
  obtain ⟨r', hr', hid⟩ := List.mem_map.mp hput
  rw [h.numbered.eq_of_id r r' (Or.inl hr) (Or.inr ⟨_, hr'⟩) hid.symm]
  exact ⟨h.touches _ r' hr' (hid ▸ mem_ids hr), List.ne_nil_of_mem hr'⟩

omit [DecidableEq κ] in
/-- A row that only this transaction touches is not held by the other. -/
theorem Keyed.not_held (h : Keyed key base needs touches t) (hr : t.Has r)
    (hk : needs i (key r.2)) (hother : ¬ touches (!i) (key r.2)) : t.held i r.1 = false := by
  rw [held, h.no_drops]
  simp only [List.not_mem_nil, decide_false, Bool.or_false, decide_eq_false_iff_not]
  intro hput
  obtain ⟨r', hr', hid⟩ := List.mem_map.mp hput
  have hkey := h.numbered.eq_of_id r' r (Or.inr ⟨_, hr'⟩) hr hid
  rw [← hkey] at hk hother
  exact hother (h.touches _ r' hr' (h.mem_ids_of_put hshare hk hr'))

omit hshare in
theorem Keyed.withKey_view (h : Keyed key base needs touches t) (hr : r ∈ t.view i) :
    withKey key (t.view i) (key r.2) = [r] := by
  have hcongr : withKey key (t.view i) (key r.2) = (t.view i).filter fun s => s.1 = r.1 := by
    refine List.filter_congr fun s hs => decide_eq_decide.mpr ⟨fun hkey => ?_, fun hid => ?_⟩
    · exact h.eq_of_key s r (has_of_mem_view hs) (has_of_mem_view hr) hkey
    · exact h.numbered.eq_of_id s r (has_of_mem_view hs) (has_of_mem_view hr) hid
  rw [hcongr]
  exact Table.filter_eq_singleton (h.numbered.nodup_view i) hr

omit hshare in
theorem withKey_eq_nil {rows : List (ℕ × ρ)} {k : κ} :
    withKey key rows k = [] ↔ ∀ r ∈ rows, key r.2 ≠ k := by
  unfold withKey
  rw [List.filter_eq_nil_iff]
  simp

omit [DecidableEq κ] in
/-- What a transaction sees of a key it needs, it has seen since it last looked. -/
theorem Grows.seen (hgrow : Grows key needs i t u) (ht : Keyed key base needs touches t)
    (hu : Keyed key base needs touches u) (hr : r ∈ u.view i) (hk : needs i (key r.2)) :
    ∃ r' ∈ t.view i, key r'.2 = key r.2 := by
  have hcommitted : (∃ r' ∈ t.rows, key r'.2 = key r.2) → ∃ r' ∈ t.view i, key r'.2 = key r.2 := by
    rintro ⟨r', hr', hkey⟩
    obtain ⟨r'', hr'', -, hkey'⟩ := ht.exists_view i hr'
    exact ⟨r'', hr'', hkey'.trans hkey⟩
  rcases hu.mem_view.mp hr with ⟨hrow, -⟩ | hput
  · rcases hgrow.new r hrow with hold | hother
    · exact hcommitted hold
    · exact hcommitted (ht.kept _ (hshare i _ hk hother))
  · exact ⟨r, ht.mem_view.mpr (Or.inr (hgrow.changes ▸ hput)), rfl⟩

/-- **Get or create a row**, with an insertion and a query of the table as it was when the statement
began: this gives exactly one row, unless it has to wait for a change of the row. -/
theorem Keyed.getOrCreate (strict : Bool) (ht : Keyed key base needs touches t)
    (hu : Keyed key base needs touches u) (hgrow : Grows key needs i t u)
    (hk : needs i (key row)) :
    (u.insert key strict i row = none ∧ strict = true ∧ touches (!i) (key row) ∧
        (u.changes !i).puts ≠ []) ∨
      ∃ ins v r, u.insert key strict i row = some (ins, v) ∧
        ins.toList ++ ids (withKey key (t.view i) (key row)) = [r.1] ∧ r ∈ v.view i ∧
        key r.2 = key row ∧ Keyed key base needs touches v ∧ Grows key needs (!i) u v := by
  unfold insert
  rw [hu.not_busy hshare hk, Bool.false_or]
  by_cases hup : (strict && u.updating key i (key row)) = true
  · rw [if_pos hup]
    rw [Bool.and_eq_true] at hup
    exact Or.inl ⟨rfl, hup.1, hu.touches_of_updating hup.2⟩
  refine Or.inr ?_
  rw [if_neg hup]
  by_cases hnone : ∀ r ∈ u.view i, key r.2 ≠ key row
  · have hbefore : ∀ r ∈ t.view i, key r.2 ≠ key row := by
      intro r hr hkey
      obtain ⟨r', hr', -, hkey'⟩ := hgrow.view hu hr
      exact hnone r' hr' (hkey'.trans hkey)
    rw [withKey_eq_nil.mpr hnone, withKey_eq_nil.mpr hbefore, List.isEmpty_nil, if_pos rfl]
    refine ⟨some u.next, u.add i row, (u.next, row), rfl, rfl, ?_, rfl,
      hu.add hshare hk hnone, .add u i row⟩
    rw [(hu.add hshare hk hnone).mem_view, changes_add_self]
    exact Or.inr (List.mem_append_right _ (List.mem_singleton_self _))
  · simp only [not_forall, not_not] at hnone
    obtain ⟨r, hr, hkey⟩ := hnone
    obtain ⟨r', hr', hkey'⟩ := hgrow.seen hshare ht hu hr (hkey ▸ hk)
    obtain ⟨s, hs, hid, hkeys⟩ := hgrow.view hu hr'
    have hnow : (withKey key (u.view i) (key row)).isEmpty = false := by
      rw [← hkey, hu.withKey_view hr]
      rfl
    have hrow : key r'.2 = key row := hkey'.trans hkey
    rw [hnow, if_neg (by simp), ← hrow, ht.withKey_view hr']
    exact ⟨none, u.skip, s, rfl, by simp [ids, hid], hs, hkeys, hu.skip, .skip _ u⟩

/-- **Insert a row or lock it**, a row that only this transaction touches. -/
theorem Keyed.upsert (hu : Keyed key base needs touches u) (hk : needs i (key row))
    (htouch : touches i (key row)) (hother : ¬ touches (!i) (key row)) :
    ∃ r v, u.upsert key i row = some (r, v) ∧ r ∈ v.view i ∧ key r.2 = key row ∧
      Keyed key base needs touches v ∧ Grows key needs (!i) u v := by
  have hup : u.updating key i (key row) = false :=
    Bool.eq_false_iff.mpr fun h => hother (hu.touches_of_updating h).1
  unfold Versioned.upsert
  rw [hu.not_busy hshare hk, hup, Bool.or_false, if_neg Bool.false_ne_true]
  by_cases hnone : ∀ r ∈ u.view i, key r.2 ≠ key row
  · have hadd := hu.add hshare hk hnone
    rw [withKey_eq_nil.mpr hnone]
    refine ⟨(u.next, row), u.add i row, rfl, ?_, rfl, hadd, .add u i row⟩
    rw [hadd.mem_view, changes_add_self]
    exact Or.inr (List.mem_append_right _ (List.mem_singleton_self _))
  · simp only [not_forall, not_not] at hnone
    obtain ⟨r, hr, hkey⟩ := hnone
    have hput := (hu.put hr rfl rfl (hkey ▸ hk) (hkey ▸ htouch)).skip
    rw [← hkey, hu.withKey_view hr]
    refine ⟨r, (u.put i r).skip, rfl, ?_, rfl, hput, (hu.grows_put hr rfl rfl).trans (.skip _ _)⟩
    rw [hput.mem_view, changes_skip, changes_put_self]
    exact Or.inr (List.mem_append_right _ (List.mem_singleton_self _))

end Operations

end Share

end Keyed

/-! ## Rows of one transaction -/

/-- A table where a transaction adds and deletes only what is its own, by the part `f` of a row. The
rows of `base` were there before; the others are of a transaction that has ended. -/
structure Owned (f : ρ → γ) (base : List (ℕ × ρ)) (own : Bool → γ → Prop) (ended : Bool → Prop)
    (t : Versioned ρ) : Prop where
  numbered : Numbered f t
  rows : ∀ r ∈ t.rows, r ∈ base ∨ ∃ j, ended j ∧ own j (f r.2)
  puts : ∀ i, ∀ r ∈ (t.changes i).puts, own i (f r.2)
  drops : ∀ i, ∀ id ∈ (t.changes i).drops, ∀ r, t.Has r → r.1 = id → own i (f r.2)

/-- What the other transaction does to such a table: it leaves the changes of transaction `i` and
the rows that are not its own. -/
structure Leaves (f : ρ → γ) (own : Bool → γ → Prop) (i : Bool) (t u : Versioned ρ) : Prop where
  changes : u.changes i = t.changes i
  rows : ∀ r ∈ t.rows, r ∈ u.rows ∨ own (!i) (f r.2)

section Owned

variable {f : ρ → γ} {base : List (ℕ × ρ)} {own own' : Bool → γ → Prop}
  {ended ended' : Bool → Prop}

theorem Leaves.of_rows (hchanges : u.changes i = t.changes i) (hrows : u.rows = t.rows) :
    Leaves f own i t u := ⟨hchanges, fun _ hr => Or.inl (hrows ▸ hr)⟩

theorem Leaves.trans (h : Leaves f own i t u) (h' : Leaves f own' i u v)
    (hown : ∀ c, own (!i) c → own' (!i) c) : Leaves f own' i t v :=
  ⟨h'.changes.trans h.changes, fun r hr =>
    (h.rows r hr).elim (h'.rows r) fun h => Or.inr (hown _ h)⟩

theorem owned_ofRows {next : ℕ} (hnodup : (ids base).Nodup) (hlt : ∀ r ∈ base, r.1 < next) :
    Owned f base own ended (ofRows base next) where
  numbered := numbered_ofRows hnodup hlt
  rows _ hr := Or.inl hr
  puts _ _ h := by cases h
  drops _ _ h := by cases h

theorem Owned.mono (h : Owned f base own ended t) (hown : ∀ i c, own i c → own' i c)
    (hended : ∀ i, ended i → ended' i) : Owned f base own' ended' t where
  numbered := h.numbered
  rows r hr := (h.rows r hr).imp_right fun ⟨j, hj, hr⟩ => ⟨j, hended j hj, hown j _ hr⟩
  puts i r hr := hown i _ (h.puts i r hr)
  drops i id hid r hr hrid := hown i _ (h.drops i id hid r hr hrid)

theorem Owned.add (h : Owned f base own ended t) (row : ρ) (hrow : own i (f row)) :
    Owned f base own ended (t.add i row) := by
  refine ⟨h.numbered.add i row, h.rows, ?_, fun j id hid r hr hrid => ?_⟩
  · refine (Function.forall_update_iff t.changes fun j c => ∀ r ∈ c.puts, own j (f r.2)).mpr
      ⟨fun r hr => ?_, fun j _ => h.puts j⟩
    rcases List.mem_append.mp hr with hr | hr
    · exact h.puts i r hr
    · rw [List.mem_singleton.mp hr]
      exact hrow
  · have hold : id ∈ (t.changes j).drops := by
      by_cases hj : j = i
      · rw [hj] at hid ⊢
        rwa [changes_add_self] at hid
      · rwa [Bool.eq_not.mpr hj, changes_add_not, ← Bool.eq_not.mpr hj] at hid
    rcases has_add hr with hr | rfl
    · exact h.drops j id hold r hr hrid
    · exact absurd hrid.symm (Nat.ne_of_lt (h.numbered.drops_lt_next j id hold))

theorem Owned.drop (h : Owned f base own ended t) {dropped : List ℕ}
    (hdropped : ∀ id ∈ dropped, ∃ r, t.Has r ∧ r.1 = id ∧ own i (f r.2)) :
    Owned f base own ended (t.drop i dropped) := by
  refine ⟨h.numbered.drop fun id hid => ?_, h.rows, fun j r hr => h.puts j r (puts_drop j ▸ hr), ?_⟩
  · obtain ⟨r, hr, rfl, -⟩ := hdropped id hid
    exact h.numbered.lt_next r hr
  · refine (Function.forall_update_iff t.changes fun j c => ∀ id ∈ c.drops, ∀ r,
      (t.drop i dropped).Has r → r.1 = id → own j (f r.2)).mpr
      ⟨fun id hid r hr hrid => ?_, fun j _ id hid r hr => h.drops j id hid r (has_drop.mp hr)⟩
    rcases List.mem_append.mp hid with hid | hid
    · exact h.drops i id hid r (has_drop.mp hr) hrid
    · obtain ⟨r', hr', hid', hown⟩ := hdropped id hid
      rwa [h.numbered.eq_of_id r r' (has_drop.mp hr) hr' (hrid.trans hid'.symm)]

/-- **A commit** leaves the rows of the other transaction. -/
theorem Owned.commit (h : Owned f base own ended t) (i : Bool) :
    Owned f base own (fun j => ended j ∨ j = i) (t.commit i) ∧
      Leaves f own (!i) t (t.commit i) := by
  refine ⟨⟨h.numbered.commit i, fun r hr => ?_, ?_, ?_⟩, changes_commit_not, fun r hr => ?_⟩
  · rcases (mem_view.mp hr).1 with ⟨hrow, -⟩ | hput
    · exact (h.rows r hrow).imp_right fun ⟨j, hj, hr⟩ => ⟨j, Or.inl hj, hr⟩
    · exact Or.inr ⟨i, Or.inr rfl, h.puts i r hput⟩
  · refine (Function.forall_update_iff t.changes fun j c => ∀ r ∈ c.puts, own j (f r.2)).mpr
      ⟨fun r hr => ?_, fun j _ => h.puts j⟩
    cases hr
  · refine (Function.forall_update_iff t.changes fun j c => ∀ id ∈ c.drops, ∀ r,
      (t.commit i).Has r → r.1 = id → own j (f r.2)).mpr
      ⟨fun id hid => ?_, fun j _ id hid r hr => h.drops j id hid r (has_commit hr)⟩
    cases hid
  · rw [Bool.not_not]
    by_cases hput : r.1 ∈ ids (t.changes i).puts
    · obtain ⟨r', hr', hid⟩ := List.mem_map.mp hput
      rw [← h.numbered.eq_of_id r' r (Or.inr ⟨i, hr'⟩) (Or.inl hr) hid]
      exact Or.inr (h.puts i r' hr')
    · by_cases hdrop : r.1 ∈ (t.changes i).drops
      · exact Or.inr (h.drops i _ hdrop r (Or.inl hr) rfl)
      · exact Or.inl (mem_view.mpr ⟨Or.inl ⟨hr, hput⟩, hdrop⟩)

/-- A row that is not the other transaction's is not held by it, now or later. -/
theorem Owned.not_held (hu : Owned f base own ended u) (hleaves : Leaves f own i t u)
    (hr : r ∈ t.view i) (hother : ¬ own (!i) (f r.2)) : u.held i r.1 = false := by
  have hhas : u.Has r := by
    rcases (mem_view.mp hr).1 with ⟨hrow, -⟩ | hput
    · exact Or.inl ((hleaves.rows r hrow).resolve_right hother)
    · exact Or.inr ⟨i, hleaves.changes ▸ hput⟩
  unfold held
  simp only [Bool.or_eq_false_iff, decide_eq_false_iff_not]
  refine ⟨fun hput => ?_, fun hdrop => hother (hu.drops _ _ hdrop r hhas rfl)⟩
  obtain ⟨r', hr', hid⟩ := List.mem_map.mp hput
  refine hother ?_
  rw [← hu.numbered.eq_of_id r' r (Or.inr ⟨_, hr'⟩) hhas hid]
  exact hu.puts _ r' hr'

/-- **Insert a row** with a new key: this neither waits nor fails. -/
theorem Owned.insert [DecidableEq κ] (h : Owned f base own ended t) (key : ρ → κ) (strict : Bool)
    (row : ρ) (hkey : ∀ r r', key r = key r' → f r = f r')
    (hrun : ¬ ended i) (hother : ¬ own (!i) (f row)) (hbase : ∀ r ∈ base, key r.2 ≠ key row)
    (hputs : ∀ r ∈ (t.changes i).puts, key r.2 ≠ key row) :
    t.insert key strict i row = some (some t.next, t.add i row) := by
  have hrows : ∀ r ∈ t.rows, key r.2 ≠ key row := by
    intro r hr heq
    rcases h.rows r hr with hold | ⟨j, hended, hown⟩
    · exact hbase r hold heq
    · by_cases hj : j = i
      · exact hrun (hj ▸ hended)
      · rw [Bool.eq_not.mpr hj, hkey _ _ heq] at hown
        exact hother hown
  have hbusy : t.busy key i (key row) = false := by
    refine List.any_eq_false.mpr fun r hr => ?_
    rw [Bool.and_eq_true, decide_eq_true_eq]
    rintro ⟨heq, -⟩
    exact hother (hkey _ _ heq ▸ h.puts _ r hr)
  have hup : t.updating key i (key row) = false := by
    refine List.any_eq_false.mpr fun r hr => ?_
    rw [Bool.and_eq_true, decide_eq_true_eq]
    exact fun hboth => hrows r hr hboth.1
  have hview : withKey key (t.view i) (key row) = [] := by
    refine withKey_eq_nil.mpr fun r hr => ?_
    rcases (mem_view.mp hr).1 with ⟨hrow, -⟩ | hput
    · exact hrows r hrow
    · exact hputs r hput
  unfold Versioned.insert
  rw [hbusy, hup, hview, Bool.and_false, Bool.or_false, if_neg Bool.false_ne_true, List.isEmpty_nil,
    if_pos rfl]

end Owned

end Versioned
