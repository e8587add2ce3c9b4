import Freighter.Lib.Paging
import Freighter.Pg.Search

/-!
# The listing of the Postgres index

* `Stamps`: `created_at` and `updated_at`; `Dated`: those of a crate with versions are there,
  **`dated_final`**: in every reachable database.
* `listRows`, `listRowToEntry`, `list`; **`list_eq`**: an entry a crate, in the order of the names.
* **`list_pages_iff`**: `list` cuts them into pages and does not panic iff no page of size zero is
  asked for.
-/

namespace Freighter

namespace PgIndex

open FsIndex (IndexOp Outcome)

/-! ## Timestamps -/

/-- `created_at` and `updated_at`, in seconds. -/
structure Times where
  createdAt : Option ℤ
  updatedAt : Option ℤ
deriving DecidableEq

/-- The timestamps of the crates, by their ids. -/
abbrev Stamps : Type := ℕ → Times

/-- What the statements of a publish set: `get-or-insert-crate.sql` both times of a new crate and
`updated_at` of an old one, `insert-dependency.sql` `created_at` of a new crate.
`current_timestamp` is one for the transaction. -/
def stamp (now : ℤ) (name : String) (before after : Db) (t : Stamps) : Stamps := fun id => {
  createdAt :=
    if id ∈ after.crates.ids ∧ id ∉ before.crates.ids then some now else (t id).createdAt
  updatedAt := if (id, name, "") ∈ after.named then some now else (t id).updatedAt }

/-- A call at a time, on the database with its timestamps. -/
def stampedStep (s : Db × Stamps) (c : Call × ℤ) : Option Outcome × (Db × Stamps) :=
  let out := step s.1 c.1
  (out.1, out.2,
    match c.1.op, out.1 with
    | .publish p _, some (.ok _) => stamp c.2 p.name s.1 out.2 s.2
    | _, _ => s.2)

/-- Nothing has a time in a new database. -/
def Stamps.empty : Stamps := fun _ => ⟨none, none⟩

/-- Crates have been created at some time, and those with versions updated. -/
structure Dated (s : Db × Stamps) : Prop where
  created : ∀ id ∈ s.1.crates.ids, (s.2 id).createdAt ≠ none
  updated : ∀ v ∈ s.1.crateVersions.rows, (s.2 v.2.crate).updatedAt ≠ none

section Stamps

variable {s : Db × Stamps} {db' : Db} {p : Publish} {ck : Checksum} {crate versionId : ℕ}

theorem dated_stamp (hs : Dated s) (h : Released s.1 p ck crate versionId db') (now : ℤ) :
    Dated (db', stamp now p.name s.1 db' s.2) := by
  constructor
  · intro id hid
    simp only [stamp]
    split_ifs with hnew
    · exact Option.some_ne_none _
    · exact hs.created id (by tauto)
  · intro v hv
    simp only [stamp]
    split_ifs with hown
    · exact Option.some_ne_none _
    · rw [h.versions] at hv
      rcases List.mem_append.mp hv with hv | hv
      · exact hs.updated v hv
      · rw [List.mem_singleton.mp hv] at hown
        exact absurd h.crate_named hown

/-- A call that inserts nothing. -/
theorem Dated.of_subset (hs : Dated s) (hids : db'.crates.ids ⊆ s.1.crates.ids)
    (hversions : ∀ v ∈ db'.crateVersions.rows, ∃ u ∈ s.1.crateVersions.rows,
      u.2.crate = v.2.crate) : Dated (db', s.2) where
  created id hid := hs.created id (hids hid)
  updated v hv := by
    obtain ⟨u, hu, hcrate⟩ := hversions v hv
    rw [← hcrate]
    exact hs.updated u hu

/-- **A call keeps the timestamps up.** -/
theorem dated_step (hs : Dated s) (c : Call × ℤ) : Dated (stampedStep s c).2 := by
  obtain ⟨⟨io, endStep, op⟩, now⟩ := c
  unfold stampedStep step
  cases op with
  | publish p ck =>
    simp only
    rcases publish_cases io s.1 p ck (fun w => (endStep, w)) () with
      ⟨hok, crate, versionId, h⟩ | ⟨⟨e, he⟩, h⟩
    · rw [hok]
      exact dated_stamp hs h now
    · rw [he]
      refine hs.of_subset ?_ ?_
      · rcases h with h | ⟨new, h⟩ <;> rw [h] <;> exact List.Subset.refl _
      · rcases h with h | ⟨new, h⟩ <;> rw [h] <;> exact fun v hv => ⟨v, hv, rfl⟩
  | yank crateName version flag =>
    simp only
    rcases yankInner_cases io s.1 crateName version flag with h | h <;> rw [h]
    · exact hs
    · refine hs.of_subset (List.Subset.refl _) fun v hv => ?_
      obtain ⟨u, hu, rfl⟩ := List.mem_map.mp hv
      obtain ⟨f, hf⟩ := flag_eq s.1 crateName version.display flag u
      exact ⟨u, hu, by rw [hf]⟩
  | confirm crateName version => exact hs

/-- The timestamps change nothing else. -/
theorem final_stampedStep (s : Db × Stamps) (calls : List (Call × ℤ)) :
    (Run.final stampedStep s calls).1 = Run.final step s.1 (calls.map Prod.fst) := by
  induction calls generalizing s with
  | nil => rfl
  | cons c calls ih => exact ih _

/-- **In every reachable database.** -/
theorem dated_final (calls : List (Call × ℤ)) :
    Dated (Run.final stampedStep (Db.empty, Stamps.empty) calls) := by
  refine Run.final_invariant (I := Dated) (fun _ c hs => dated_step hs c) ⟨?_, ?_⟩ calls
  · exact fun id hid => absurd hid List.not_mem_nil
  · exact fun v hv => absurd hv List.not_mem_nil

end Stamps

/-! ## The query -/

/-- Rows with their links to labels and the labels. -/
abbrev Labelled (ρ : Type) : Type := (ρ × Option (ℕ × (ℕ × ℕ))) × Option (ℕ × String)

/-- The left joins with `crate_keywords` and `keywords`, or with those of the categories. A null
is equal to nothing. -/
def Db.joinLabels {ρ : Type} (db : Db) (l : Label) (crate : ρ → ℕ) (rows : List ρ) :
    List (Labelled ρ) :=
  Query.leftJoin (fun r n => r.2.any fun link => n.1 = link.2.2)
    (Query.leftJoin (fun r link => crate r = link.2.1) rows (db.labels l).ofCrates.rows)
    (db.labels l).names.rows

/-- A row of the joins of `list.sql`. -/
abbrev ListJoin : Type := Labelled (Labelled ((ℕ × CrateRow) × (ℕ × VersionRow)))

/-- The joins over these crates. -/
def Db.listJoin (db : Db) (crates : List (ℕ × CrateRow)) : List ListJoin :=
  db.joinLabels .keyword (fun r => r.1.1.1.1) (db.joinLabels .category (fun r => r.1.1)
    (Query.join (fun c cv => c.1 = cv.2.crate) crates db.crateVersions.rows))

/-- The columns of a crate that are selected. -/
structure CrateColumns where
  name : String
  description : Option String
  documentation : Option String
  homepage : Option String
  repository : Option String
  createdAt : Option ℤ
  updatedAt : Option ℤ
deriving DecidableEq

def CrateColumns.of (t : Stamps) (c : ℕ × CrateRow) : CrateColumns :=
  ⟨c.2.name, c.2.description, c.2.documentation, c.2.homepage, c.2.repository, (t c.1).createdAt,
    (t c.1).updatedAt⟩

/-- A row of the result. -/
structure ListRow extends CrateColumns where
  versions : List String
  categories : Option (List String)
  keywords : Option (List String)

/-- `array_agg(distinct …) filter (where … is not null)`, null when nothing is left. -/
def arrayAgg {ρ : Type} (label : ρ → Option String) (rows : List ρ) : Option (List String) :=
  match (rows.filterMap label).dedup with
  | [] => none
  | names => some names

/-- What is selected from a group. -/
def ListRow.ofGroup (g : CrateColumns × List ListJoin) : ListRow where
  toCrateColumns := g.1
  versions := (g.2.map fun r => r.1.1.1.1.2.2.version).dedup
  categories := arrayAgg (fun r => r.1.1.2.map Prod.snd) g.2
  keywords := arrayAgg (fun r => r.2.map Prod.snd) g.2

/-- `list.sql`. -/
def Db.listRows (db : Db) (t : Stamps) : List ListRow :=
  let rows := (db.listJoin db.crates.rows).filter fun r => r.1.1.1.1.1.2.registry = ""
  let groups := Query.groupBy (fun r : ListJoin => CrateColumns.of t r.1.1.1.1.1) rows
  (groups.filter fun g => 0 < g.2.length).map ListRow.ofGroup

section Calls

variable (S : Semver)

/-- A text that does not parse and a timestamp that is null are panics: `none`. -/
def listRowToEntry (row : ListRow) : Option ListAllCrateEntry := do
  let versions ← row.versions.mapM S.parseVersion
  let createdAt ← row.createdAt
  let updatedAt ← row.updatedAt
  return {
    name := row.name
    versions := versions
    description := row.description.getD ""
    createdAt := createdAt
    updatedAt := updatedAt
    homepage := row.homepage
    repository := row.repository
    documentation := row.documentation
    keywords := row.keywords.getD []
    categories := row.categories.getD [] }

/-- `list`; the sort is unstable, but no two rows have one name. -/
def list (fails : Request → Bool) (arrival : List ListRow → List ListRow) (db : Db) (t : Stamps)
    (pagination : ListQuery) : Option (Except IndexError ListAll) :=
  browse fails (arrival (db.listRows t)) fun rows =>
    let rows := rows.mergeSort fun a b => decide (a.name ≤ b.name)
    match pagination.perPage with
    | some perPage =>
      (Paging.chunks perPage rows).bind fun chunks =>
        (chunks[pagination.page.getD 0]?.getD []).mapM (listRowToEntry S)
    | none => rows.mapM (listRowToEntry S)

end Calls

/-! ## What it is about -/

/-- The crates of this registry with a version. -/
def Db.listed (db : Db) : List (ℕ × CrateRow) :=
  db.crates.rows.filter fun c => c.2.registry = "" && !(db.versionsOf c.1).isEmpty

/-- The row of a crate. -/
def Db.listRow (db : Db) (t : Stamps) (c : ℕ × CrateRow) : ListRow :=
  ListRow.ofGroup (CrateColumns.of t c, db.listJoin [c])

section Rows

variable {ρ : Type} {db : Db} {l : Label} {crate : ρ → ℕ} {rows : List ρ} {c : ℕ × CrateRow}

theorem joinLabels_flatMap {γ : Type} (cs : List γ) (f : γ → List ρ) :
    db.joinLabels l crate (cs.flatMap f) = cs.flatMap fun c => db.joinLabels l crate (f c) := by
  unfold Db.joinLabels
  rw [Query.leftJoin_flatMap, Query.leftJoin_flatMap]

theorem joinLabels_eq_nil : db.joinLabels l crate rows = [] ↔ rows = [] := by
  unfold Db.joinLabels
  rw [Query.leftJoin_eq_nil, Query.leftJoin_eq_nil]

/-- The rows stay. -/
theorem of_mem_joinLabels {r : Labelled ρ} (h : r ∈ db.joinLabels l crate rows) : r.1.1 ∈ rows := by
  obtain ⟨⟨r, link⟩, n⟩ := r
  exact (Query.mem_leftJoin.mp (Query.mem_leftJoin.mp h).1).1

variable (db l crate) in
theorem exists_mem_joinLabels {r : ρ} (h : r ∈ rows) :
    ∃ r' ∈ db.joinLabels l crate rows, r'.1.1 = r := by
  obtain ⟨link, hlink⟩ := Query.exists_mem_leftJoin (fun r link => crate r = link.2.1)
    (db.labels l).ofCrates.rows h
  obtain ⟨n, hn⟩ := Query.exists_mem_leftJoin (fun r n => r.2.any fun link => n.1 = link.2.2)
    (db.labels l).names.rows hlink
  exact ⟨_, hn, rfl⟩

/-- **The labels that are joined to a row** are those of its crate. -/
theorem mem_joinLabels (db : Db) (l : Label) (crate : ρ → ℕ) {r : ρ} (h : r ∈ rows)
    (name : String) :
    (∃ r' ∈ db.joinLabels l crate rows, r'.1.1 = r ∧ r'.2.map Prod.snd = some name) ↔
      name ∈ (getCrateLabels l (crate r) db).1 := by
  unfold Db.joinLabels getCrateLabels
  simp only [List.mem_flatMap, List.mem_filter, List.mem_map, decide_eq_true_eq]
  constructor
  · rintro ⟨⟨⟨r', link⟩, n⟩, hr', rfl, hname⟩
    obtain ⟨hlink, hn⟩ := Query.mem_leftJoin.mp hr'
    obtain ⟨n, rfl, rfl⟩ := Option.map_eq_some_iff.mp hname
    rw [Query.some_mem_orNull, List.mem_filter, Option.any_eq_true] at hn
    obtain ⟨hn, link', rfl, hid⟩ := hn
    have hlink := (Query.mem_leftJoin.mp hlink).2
    rw [Query.some_mem_orNull, List.mem_filter, decide_eq_true_eq] at hlink
    exact ⟨link', ⟨hlink.1, hlink.2.symm⟩, n, ⟨hn, of_decide_eq_true hid⟩, rfl⟩
  · rintro ⟨link, ⟨hlink, hcrate⟩, n, ⟨hn, hid⟩, rfl⟩
    refine ⟨((r, some link), some n), Query.mem_leftJoin.mpr ⟨Query.mem_leftJoin.mpr ⟨h, ?_⟩, ?_⟩,
      rfl, rfl⟩
    · rw [Query.some_mem_orNull, List.mem_filter]
      exact ⟨hlink, decide_eq_true hcrate.symm⟩
    · rw [Query.some_mem_orNull, List.mem_filter]
      exact ⟨hn, by simp [hid]⟩

theorem of_mem_listJoin {r : ListJoin} (h : r ∈ db.listJoin [c]) :
    r.1.1.1.1.1 = c ∧ r.1.1.1.1.2 ∈ db.versionsOf c.1 := by
  obtain ⟨hc, hcv, hon⟩ := Query.mem_join.mp (of_mem_joinLabels (of_mem_joinLabels h))
  rw [List.mem_singleton] at hc
  rw [hc] at hon
  exact ⟨hc, List.mem_filter.mpr ⟨hcv, hon⟩⟩

theorem mem_join_versions {cv : ℕ × VersionRow} (h : cv ∈ db.versionsOf c.1) :
    (c, cv) ∈ Query.join (fun c cv => c.1 = cv.2.crate) [c] db.crateVersions.rows :=
  Query.mem_join.mpr ⟨List.mem_singleton_self c, List.mem_filter.mp h⟩

theorem isEmpty_listJoin (db : Db) (c : ℕ × CrateRow) :
    (db.listJoin [c]).isEmpty = (db.versionsOf c.1).isEmpty := by
  rw [Bool.eq_iff_iff, List.isEmpty_iff, List.isEmpty_iff]
  unfold Db.listJoin
  rw [joinLabels_eq_nil, joinLabels_eq_nil]
  simp [Query.join, Db.versionsOf]

/-- The versions of a row. -/
theorem mem_listRow_versions (db : Db) (t : Stamps) (c : ℕ × CrateRow) (text : String) :
    text ∈ (db.listRow t c).versions ↔ ∃ cv ∈ db.versionsOf c.1, cv.2.version = text := by
  unfold Db.listRow ListRow.ofGroup
  simp only [List.mem_dedup, List.mem_map]
  constructor
  · rintro ⟨r, hr, rfl⟩
    exact ⟨_, (of_mem_listJoin hr).2, rfl⟩
  · rintro ⟨cv, hcv, rfl⟩
    obtain ⟨r, hr, hcv'⟩ :=
      exists_mem_joinLabels db .category (fun r => r.1.1) (mem_join_versions hcv)
    obtain ⟨r', hr', rfl⟩ := exists_mem_joinLabels db .keyword (fun r => r.1.1.1.1) hr
    exact ⟨r', hr', by rw [hcv']⟩

theorem mem_arrayAgg {label : ρ → Option String} {name : String} :
    name ∈ (arrayAgg label rows).getD [] ↔ ∃ r ∈ rows, label r = some name := by
  have hdedup : name ∈ (rows.filterMap label).dedup ↔ ∃ r ∈ rows, label r = some name := by
    rw [List.mem_dedup, List.mem_filterMap]
  unfold arrayAgg
  rw [← hdedup]
  cases (rows.filterMap label).dedup with
  | nil => rfl
  | cons n names => rfl

/-- The labels of one crate. -/
theorem mem_labels {id : ℕ} (hcrate : ∀ r ∈ rows, crate r = id) (hne : rows ≠ []) (name : String) :
    (∃ r ∈ db.joinLabels l crate rows, r.2.map Prod.snd = some name) ↔
      name ∈ (getCrateLabels l id db).1 := by
  constructor
  · rintro ⟨r, hr, hname⟩
    have hrow := of_mem_joinLabels hr
    rw [← hcrate _ hrow]
    exact (mem_joinLabels db l crate hrow name).mp ⟨r, hr, rfl, hname⟩
  · intro hname
    obtain ⟨r, hr⟩ := List.exists_mem_of_ne_nil _ hne
    rw [← hcrate r hr] at hname
    obtain ⟨r', hr', -, hname⟩ := (mem_joinLabels db l crate hr name).mpr hname
    exact ⟨r', hr', hname⟩

theorem mem_listRow_labels (t : Stamps) (hne : db.versionsOf c.1 ≠ []) (name : String) :
    (name ∈ (db.listRow t c).keywords.getD [] ↔ name ∈ (getCrateLabels .keyword c.1 db).1) ∧
    (name ∈ (db.listRow t c).categories.getD [] ↔ name ∈ (getCrateLabels .category c.1 db).1) := by
  obtain ⟨cv, hcv⟩ := List.exists_mem_of_ne_nil _ hne
  have hjoin := mem_join_versions hcv
  have hcrate : ∀ r ∈ Query.join (fun c cv => c.1 = cv.2.crate) [c] db.crateVersions.rows,
      r.1.1 = c.1 := by
    rintro ⟨c', cv'⟩ hr
    rw [List.mem_singleton.mp (Query.mem_join.mp hr).1]
  unfold Db.listRow ListRow.ofGroup Db.listJoin
  simp only [mem_arrayAgg]
  constructor
  · refine mem_labels (fun r hr => hcrate _ (of_mem_joinLabels hr)) ?_ name
    rw [Ne, joinLabels_eq_nil]
    exact List.ne_nil_of_mem hjoin
  · rw [← mem_labels hcrate (List.ne_nil_of_mem hjoin) name]
    constructor
    · rintro ⟨r, hr, hname⟩
      exact ⟨_, of_mem_joinLabels hr, hname⟩
    · rintro ⟨r, hr, hname⟩
      obtain ⟨r', hr', rfl⟩ := exists_mem_joinLabels db .keyword (fun r => r.1.1.1.1) hr
      exact ⟨r', hr', hname⟩

theorem mem_listed : c ∈ db.listed ↔
    c ∈ db.crates.rows ∧ c.2.registry = "" ∧ db.versionsOf c.1 ≠ [] := by
  simp [Db.listed]

theorem nodup_listed (db : Db) : (db.listed.map (·.2.name)).Nodup :=
  nodup_names fun c hc => by
    simp only [Bool.and_eq_true, decide_eq_true_eq] at hc
    exact hc.1

/-- **A row for each crate.** -/
theorem listRows_perm (db : Db) (t : Stamps) :
    (db.listRows t).Perm (db.listed.map (db.listRow t)) := by
  have hflat : db.listJoin db.crates.rows = db.crates.rows.flatMap fun c => db.listJoin [c] := by
    unfold Db.listJoin
    rw [Query.join_eq_flatMap, joinLabels_flatMap, joinLabels_flatMap]
  have hnodup : ((db.crates.rows.filter fun c => c.2.registry = "").map
      (CrateColumns.of t)).Nodup := by
    apply List.Nodup.of_map CrateColumns.name
    rw [List.map_map]
    exact nodup_names fun c hc => of_decide_eq_true hc
  have hlisted : (db.crates.rows.filter fun c => c.2.registry = "").filter
      (fun c => !(db.listJoin [c]).isEmpty) = db.listed := by
    rw [List.filter_filter]
    apply List.filter_congr
    intro c _
    rw [isEmpty_listJoin, Bool.and_comm]
  have hgroups := Query.groupBy_where (fun r : ListJoin => CrateColumns.of t r.1.1.1.1.1)
    (f := fun c => db.listJoin [c]) (p := fun r => r.1.1.1.1.1.2.registry = "")
    (fun c _ r hr => by rw [(of_mem_listJoin hr).1])
    (fun c _ r hr => by rw [(of_mem_listJoin hr).1]) hnodup
  rw [hlisted, ← hflat] at hgroups
  refine (hgroups.map ListRow.ofGroup).trans (List.Perm.of_eq ?_)
  rw [List.map_map]
  rfl

end Rows

/-! ## The entries in their order -/

/-- The entry of a crate: what its row says, its times, its versions and its labels. -/
structure Listed (db : Db) (t : Stamps) (c : ℕ × CrateRow) (e : ListAllCrateEntry) : Prop where
  name : e.name = c.2.name
  metadata : e.description = c.2.description.getD "" ∧ e.homepage = c.2.homepage ∧
    e.repository = c.2.repository ∧ e.documentation = c.2.documentation
  times : (t c.1).createdAt = some e.createdAt ∧ (t c.1).updatedAt = some e.updatedAt
  versions : ∀ v : Version, v ∈ e.versions ↔ ∃ cv ∈ db.versionsOf c.1, cv.2.version = v.display
  keywords : ∀ k, k ∈ e.keywords ↔ k ∈ (getCrateLabels .keyword c.1 db).1
  categories : ∀ k, k ∈ e.categories ↔ k ∈ (getCrateLabels .category c.1 db).1

section Entries

variable (S : Semver) {db : Db} {t : Stamps} {c : ℕ × CrateRow}

/-- **A row is converted.** -/
theorem listRowToEntry_eq (h : Consistent db) (ht : Dated (db, t)) (hc : c ∈ db.listed) :
    ∃ e, listRowToEntry S (db.listRow t c) = some e ∧ Listed db t c e := by
  obtain ⟨hrow, -, hne⟩ := mem_listed.mp hc
  obtain ⟨vs, hvs, hmem⟩ := exists_versions S h c (mem_listRow_versions db t c)
  obtain ⟨created, hcreated⟩ :=
    Option.ne_none_iff_exists'.mp (ht.created c.1 (List.mem_map_of_mem hrow))
  obtain ⟨updated, hupdated⟩ : ∃ updated, (t c.1).updatedAt = some updated := by
    obtain ⟨cv, hcv⟩ := List.exists_mem_of_ne_nil _ hne
    obtain ⟨hcv, hcrate⟩ := List.mem_filter.mp hcv
    rw [of_decide_eq_true hcrate]
    exact Option.ne_none_iff_exists'.mp (ht.updated cv hcv)
  have hlabels := mem_listRow_labels t hne
  have hcreatedAt : (db.listRow t c).createdAt = some created := hcreated
  have hupdatedAt : (db.listRow t c).updatedAt = some updated := hupdated
  refine ⟨_, by unfold listRowToEntry; rw [hvs, hcreatedAt, hupdatedAt]; rfl, ?_⟩
  exact {
    name := rfl
    metadata := ⟨rfl, rfl, rfl, rfl⟩
    times := ⟨hcreated, hupdated⟩
    versions := hmem
    keywords := fun k => (hlabels k).1
    categories := fun k => (hlabels k).2 }

/-- The rows in the order of their names, in whatever order they arrive. -/
theorem exists_sorted (db : Db) (t : Stamps) {arrival : List ListRow → List ListRow}
    (harrival : ∀ rows, (arrival rows).Perm rows) :
    ∃ cs : List (ℕ × CrateRow), cs.Perm db.listed ∧
      cs.Pairwise (fun a b => a.2.name < b.2.name) ∧
      (arrival (db.listRows t)).mergeSort (fun a b => decide (a.name ≤ b.name)) =
        cs.map (db.listRow t) := by
  let cs := db.listed.mergeSort fun a b => decide (a.2.name ≤ b.2.name)
  have hperm : cs.Perm db.listed := List.mergeSort_perm _ _
  have hmap : cs.map (db.listRow t) = (db.listed.map (db.listRow t)).mergeSort
      fun a b => decide (a.name ≤ b.name) := List.map_mergeSort fun _ _ _ _ => rfl
  have hnames : ((db.listed.map (db.listRow t)).map fun row => row.name).Nodup := by
    rw [List.map_map]
    exact nodup_listed db
  refine ⟨cs, hperm, ?_, ?_⟩
  · have hle : cs.Pairwise fun a b => a.2.name ≤ b.2.name :=
      pairwise_mergeSort_key (fun _ _ => decide_eq_true_iff) db.listed
    have hne : cs.Pairwise fun a b => a.2.name ≠ b.2.name :=
      List.pairwise_map.mp ((hperm.map _).nodup_iff.mpr (nodup_listed db))
    exact hle.imp₂ (fun _ _ => lt_of_le_of_ne) hne
  · rw [hmap]
    exact mergeSort_eq_of_perm (fun _ _ => decide_eq_true_iff)
      ((harrival _).trans (listRows_perm db t)) hnames

/-- **What `list` answers**: entries of the crates, in the order of their names, or a block of
them. -/
theorem list_eq (h : Consistent db) (ht : Dated (db, t)) {arrival : List ListRow → List ListRow}
    (harrival : ∀ rows, (arrival rows).Perm rows) :
    ∃ cs es, cs.Perm db.listed ∧ cs.Pairwise (fun a b => a.2.name < b.2.name) ∧
      List.Forall₂ (Listed db t) cs es ∧ ∀ pagination,
        list S (fun _ => false) arrival db t pagination =
          match pagination.perPage with
          | none => some (.ok es)
          | some perPage =>
            if perPage = 0 then none
            else some (.ok (Paging.block perPage es (pagination.page.getD 0))) := by
  obtain ⟨cs, hperm, hsorted, hrows⟩ := exists_sorted db t harrival
  obtain ⟨es, hes, hblock⟩ := Query.mapM_block (f := fun c => listRowToEntry S (db.listRow t c))
    (l := cs) (P := Listed db t) fun c hc =>
      listRowToEntry_eq S h ht (hperm.mem_iff.mp hc)
  refine ⟨cs, es, hperm, hsorted, hes, fun pagination => ?_⟩
  unfold list browse
  simp only [Bool.false_eq_true, if_false, Bool.or_self, hrows]
  cases pagination.perPage with
  | none =>
    have hall := hblock 0 es.length
    rw [List.drop_zero, List.drop_zero, List.take_length, ← hes.length_eq, List.take_length] at hall
    simp only [List.mapM_map, Function.comp_def, hall]
    rfl
  | some perPage =>
    by_cases hp : perPage = 0
    · simp only [hp, Paging.chunks, if_true, Option.bind_none, Option.map_none]
    · obtain ⟨chunks, hchunks⟩ : ∃ chunks, Paging.chunks perPage (cs.map (db.listRow t)) =
          some chunks := ⟨_, if_neg hp⟩
      have hpage := hblock (pagination.page.getD 0 * perPage) perPage
      simp only [hchunks, Option.bind_some, Paging.getD_chunks hchunks, Paging.block,
        ← List.map_drop, ← List.map_take, List.mapM_map, Function.comp_def, hpage, if_neg hp]
      rfl

end Entries

/-! ## Pages -/

/-- **A listing by pages** of the sorted crates `es`: all of them without a size, else a block, and
no panic. -/
def Paged (es : List ListAllCrateEntry) (pagination : ListQuery)
    (out : Option (Except IndexError ListAll)) : Prop :=
  ∃ r, out = some (.ok r) ∧ (pagination.perPage = none → r = es) ∧
    ∀ perPage, pagination.perPage = some perPage → 1 ≤ perPage →
      r = (es.drop (pagination.page.getD 0 * perPage)).take perPage

/-- **Exactly when `list` answers with a page.** In every consistent database whose crates have
their timestamps, whatever the order in which Postgres returns the rows, `list` answers from one
list with an entry for each crate of this registry that has a version, by their names: with the
whole list or with a block of it, iff it is not asked for pages of size zero. The blocks of a size
from one on are the list, each in its place, and nothing after it. -/
theorem list_pages_iff (S : Semver) (db : Db) (t : Stamps) (h : Consistent db) (ht : Dated (db, t))
    (arrival : List ListRow → List ListRow) (harrival : ∀ rows, (arrival rows).Perm rows) :
    ∃ cs es, cs.Perm db.listed ∧ cs.Pairwise (fun a b => a.2.name < b.2.name) ∧
      List.Forall₂ (Listed db t) cs es ∧
      (∀ pagination, Paged es pagination (list S (fun _ => false) arrival db t pagination) ↔
        pagination.perPage ≠ some 0) ∧
      ∀ perPage, 1 ≤ perPage →
        (∀ i, es.length ≤ i * perPage → (es.drop (i * perPage)).take perPage = []) ∧
        ∀ m, es.length ≤ m * perPage →
          ((List.range m).map fun i => (es.drop (i * perPage)).take perPage).flatten = es := by
  obtain ⟨cs, es, hperm, hsorted, hes, hlist⟩ := list_eq S h ht harrival
  refine ⟨cs, es, hperm, hsorted, hes, fun pagination => ?_, fun perPage _ => ⟨?_, ?_⟩⟩
  · rw [hlist pagination]
    unfold Paged
    cases pagination.perPage with
    | none => exact ⟨fun _ => nofun, fun _ => ⟨es, rfl, fun _ => rfl, nofun⟩⟩
    | some perPage =>
      simp only
      split_ifs with hp
      · rw [hp]
        exact ⟨nofun, fun hno => absurd rfl hno⟩
      · refine ⟨fun _ e => hp (Option.some.inj e), fun _ => ⟨_, rfl, nofun, ?_⟩⟩
        intro size hsize _
        cases hsize
        rfl
  · exact fun i hi => Paging.block_eq_nil hi
  · intro m hm
    have hblocks := Paging.flatten_blocks perPage es m
    rw [List.take_of_length_le hm] at hblocks
    exact hblocks

/-- `chunks` refuses a size of zero. -/
theorem list_size_zero (S : Semver) (arrival : List ListRow → List ListRow) (db : Db) (t : Stamps)
    (page : Option ℕ) : list S (fun _ => false) arrival db t ⟨some 0, page⟩ = none := by
  simp [list, browse, Paging.chunks]

/-- The second of two pages. -/
theorem list_second_page :
    let s := Run.final stampedStep (Db.empty, Stamps.empty) (fooAndBar.map fun c => (c, 0))
    ∃ es, es.length = 2 ∧ Paged es ⟨some 1, some 1⟩
      (list Semver.canonical (fun _ => false) id s.1 s.2 ⟨some 1, some 1⟩) := by
  intro s
  have hs : s.1 = Run.final step Db.empty fooAndBar := by
    rw [final_stampedStep, List.map_map]
    rfl
  have hc : Consistent s.1 := by
    rw [hs]
    exact consistent_final _
  obtain ⟨cs, es, hperm, -, hes, hiff, -⟩ := list_pages_iff Semver.canonical s.1 s.2 hc
    (dated_final _) id (fun _ => List.Perm.refl _)
  refine ⟨es, ?_, (hiff _).mpr (by decide)⟩
  rw [← hes.length_eq, hperm.length_eq, hs]
  decide +kernel

/-- A page of size zero is a panic. -/
theorem list_panics :
    let s := Run.final stampedStep (Db.empty, Stamps.empty) (fooAndBar.map fun c => (c, 0))
    Consistent s.1 ∧ Dated s ∧
      list Semver.canonical (fun _ => false) id s.1 s.2 ⟨some 0, none⟩ = none ∧
      ∀ es, ¬ Paged es ⟨some 0, none⟩
        (list Semver.canonical (fun _ => false) id s.1 s.2 ⟨some 0, none⟩) := by
  intro s
  have hc : Consistent s.1 := by
    rw [final_stampedStep]
    exact consistent_final _
  have hnone := list_size_zero Semver.canonical id s.1 s.2 none
  refine ⟨hc, dated_final _, hnone, fun es => ?_⟩
  rw [hnone]
  rintro ⟨r, hr, -⟩
  cases hr

end PgIndex

end Freighter
