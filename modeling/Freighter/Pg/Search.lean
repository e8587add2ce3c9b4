import Freighter.Lib.Query
import Freighter.Lib.StableSort
import Freighter.Pg.Consistent
import Freighter.Types.Precedence
import Freighter.Types.Response
import Mathlib.Order.Bounds.Basic

/-!
# The search of the Postgres index

`search.sql` joins the crates with their versions and, as far as there are any, with the
dependencies on them, and `search` sorts what it counts.

* `searchRows`, `SearchRow.cmp`, `searchRowToEntry`, `search`; **`search_eq`**: an entry a crate.
* `Ranked`: the crates with the most dependents first.
* **`search_ranks_iff`**: `search` ranks them so unless a crate with no dependents has a lesser name
  than one with a single dependent.

The order in which Postgres returns rows, and of versions, are parameters.
-/

namespace Freighter

namespace PgIndex

/-! ## The query -/

/-- What a listing asks of the database. -/
inductive Request where
  | connect
  | prepare
  | query
deriving DecidableEq

/-- What a listing answers from the rows of its query; `none` is a panic. -/
def browse {ρ α : Type} (fails : Request → Bool) (rows : List ρ) (f : List ρ → Option α) :
    Option (Except IndexError α) :=
  if fails .connect then none
  else if fails .prepare || fails .query then some (.error .serviceError)
  else (f rows).map .ok

/-- Where the first occurrence begins, from one; 0 if there is none. -/
def position (substring text : String) : ℕ :=
  match text.toList.tails.findIdx? fun t => substring.toList.isPrefixOf t with
  | some i => i + 1
  | none => 0

/-- `concat`, for which a null is the empty text. -/
def concat (dependent : Option ℕ) (crate : ℕ) : String :=
  (dependent.map Nat.repr).getD "" ++ crate.repr

/-- A row of the joins of `search.sql`. -/
abbrev SearchJoin : Type :=
  ((ℕ × CrateRow) × (ℕ × VersionRow)) × Option (ℕ × DependencyRow)

/-- A row of the result. -/
structure SearchRow where
  name : String
  description : Option String
  versions : List String
  count : ℕ

/-- What is selected from a group. -/
def SearchRow.ofGroup (g : (String × Option String) × List SearchJoin) : SearchRow where
  name := g.1.1
  description := g.1.2
  versions := (g.2.map fun r => r.1.2.2.version).dedup
  count := (g.2.map fun r => concat (r.2.map (·.2.dependent)) r.1.1.1).dedup.length

/-- The joins over these crates. -/
def Db.searchJoin (db : Db) (crates : List (ℕ × CrateRow)) : List SearchJoin :=
  Query.leftJoin (fun r d => r.1.1 = d.2.dependency)
    (Query.join (fun c cv => c.1 = cv.2.crate) crates db.crateVersions.rows) db.dependencies.rows

/-- `search.sql`. -/
def Db.searchRows (db : Db) (queryString : String) : List SearchRow :=
  let rows := (db.searchJoin db.crates.rows).filter fun r =>
    r.1.1.2.registry = "" && 0 < position queryString r.1.1.2.name
  let groups := Query.groupBy (fun r : SearchJoin => (r.1.1.2.name, r.1.1.2.description)) rows
  (groups.filter fun g => 0 < g.2.length).map SearchRow.ofGroup

/-- The comparison that the rows are sorted by. -/
def SearchRow.cmp (a b : SearchRow) : Ordering :=
  match compare a.count b.count with
  | .lt => .gt
  | .eq => compare a.name b.name
  | .gt => .lt

section Calls

variable [LinearOrder Version] (S : Semver)

/-- `none` when a text does not parse or there is no version. -/
def searchRowToEntry (row : SearchRow) : Option SearchResultsEntry :=
  ((row.versions.mapM S.parseVersion).bind List.max?).map fun maxVersion =>
    ⟨row.name, maxVersion, row.description.getD ""⟩

/-- `search`; the sort is unstable, but no two rows have one name. -/
def search (fails : Request → Bool) (arrival : List SearchRow → List SearchRow) (db : Db)
    (queryString : String) (limit : ℕ) : Option (Except IndexError SearchResults) :=
  browse fails (arrival (db.searchRows queryString)) fun rows =>
    let rows := rows.mergeSort fun a b => (a.cmp b).isLE
    ((rows.take limit).mapM (searchRowToEntry S)).map fun crates => ⟨crates, rows.length⟩

end Calls

/-! ## What it is about -/

/-- The versions of a crate. -/
def Db.versionsOf (db : Db) (crate : ℕ) : List (ℕ × VersionRow) :=
  db.crateVersions.rows.filter fun cv => crate = cv.2.crate

/-- The crate versions that depend on a crate. -/
def Db.dependents (db : Db) (crate : ℕ) : Finset ℕ :=
  ((db.dependencies.rows.filter fun d => crate = d.2.dependency).map (·.2.dependent)).toFinset

/-- The crates of this registry with a version and with the query in their name. -/
def Db.found (db : Db) (queryString : String) : List (ℕ × CrateRow) :=
  db.crates.rows.filter fun c => c.2.registry = "" &&
    decide (queryString.toList <:+: c.2.name.toList) && !(db.versionsOf c.1).isEmpty

/-- The row of a crate. -/
def Db.searchRow (db : Db) (c : ℕ × CrateRow) : SearchRow :=
  SearchRow.ofGroup ((c.2.name, c.2.description), db.searchJoin [c])

section Rows

variable {db : Db} {c : ℕ × CrateRow} {queryString : String}

theorem position_pos (substring text : String) :
    0 < position substring text ↔ substring.toList <:+: text.toList := by
  unfold position
  rw [List.infix_iff_prefix_suffix]
  cases h : text.toList.tails.findIdx? fun t => substring.toList.isPrefixOf t with
  | none =>
    rw [List.findIdx?_eq_none_iff] at h
    refine ⟨fun h0 => absurd h0 (lt_irrefl _), ?_⟩
    rintro ⟨t, hp, hs⟩
    have := h t ((List.mem_tails t _).mpr hs)
    rw [List.isPrefixOf_iff_prefix.mpr hp] at this
    cases this
  | some i =>
    refine ⟨fun _ => ?_, fun _ => Nat.succ_pos i⟩
    obtain ⟨hi, hp, -⟩ := List.findIdx?_eq_some_iff_getElem.mp h
    exact ⟨_, List.isPrefixOf_iff_prefix.mp hp, (List.mem_tails _ _).mp (List.getElem_mem hi)⟩

theorem mem_searchJoin {r : SearchJoin} : r ∈ db.searchJoin [c] ↔
    r.1.1 = c ∧ r.1.2 ∈ db.versionsOf c.1 ∧
      r.2 ∈ Query.orNull (db.dependencies.rows.filter fun d => c.1 = d.2.dependency) := by
  obtain ⟨⟨c', cv⟩, d⟩ := r
  unfold Db.searchJoin Db.versionsOf
  rw [Query.mem_leftJoin, Query.mem_join, List.mem_singleton, List.mem_filter]
  constructor
  · rintro ⟨⟨rfl, hcv, hon⟩, hd⟩
    exact ⟨rfl, ⟨hcv, hon⟩, hd⟩
  · rintro ⟨rfl, ⟨hcv, hon⟩, hd⟩
    exact ⟨⟨rfl, hcv, hon⟩, hd⟩

theorem isEmpty_searchJoin (db : Db) (c : ℕ × CrateRow) :
    (db.searchJoin [c]).isEmpty = (db.versionsOf c.1).isEmpty := by
  rw [Bool.eq_iff_iff, List.isEmpty_iff, List.isEmpty_iff]
  unfold Db.searchJoin
  rw [Query.leftJoin_eq_nil]
  simp [Query.join, Db.versionsOf]

/-- The versions of a row. -/
theorem mem_versions (db : Db) (c : ℕ × CrateRow) (text : String) :
    text ∈ (db.searchRow c).versions ↔ ∃ cv ∈ db.versionsOf c.1, cv.2.version = text := by
  unfold Db.searchRow SearchRow.ofGroup
  simp only [List.mem_dedup, List.mem_map]
  constructor
  · rintro ⟨r, hr, rfl⟩
    exact ⟨_, (mem_searchJoin.mp hr).2.1, rfl⟩
  · rintro ⟨cv, hcv, rfl⟩
    obtain ⟨d, hd⟩ := List.exists_mem_of_ne_nil _
      (Query.orNull_ne_nil (db.dependencies.rows.filter fun d => c.1 = d.2.dependency))
    exact ⟨((c, cv), d), mem_searchJoin.mpr ⟨rfl, hcv, hd⟩, rfl⟩

theorem concat_injective (crate : ℕ) :
    Function.Injective fun dependent => concat (some dependent) crate := by
  intro d d' h
  exact Nat.repr_injective ((String.append_left_inj _).mp h)

/-- **The count of a row**: its dependents, but never less than one. -/
theorem count_searchRow (hne : db.versionsOf c.1 ≠ []) :
    (db.searchRow c).count = max 1 (db.dependents c.1).card := by
  obtain ⟨cv, hcv⟩ := List.exists_mem_of_ne_nil _ hne
  have hmem : ∀ text, text ∈ ((db.searchJoin [c]).map fun r =>
      concat (r.2.map (·.2.dependent)) r.1.1.1).toFinset ↔
      ∃ d ∈ Query.orNull (db.dependencies.rows.filter fun d => c.1 = d.2.dependency),
        concat (d.map (·.2.dependent)) c.1 = text := by
    intro text
    rw [List.mem_toFinset, List.mem_map]
    constructor
    · rintro ⟨r, hr, rfl⟩
      obtain ⟨hc, -, hd⟩ := mem_searchJoin.mp hr
      exact ⟨r.2, hd, by rw [hc]⟩
    · rintro ⟨d, hd, rfl⟩
      exact ⟨((c, cv), d), mem_searchJoin.mpr ⟨rfl, hcv, hd⟩, rfl⟩
  unfold Db.searchRow SearchRow.ofGroup Db.dependents
  simp only
  rw [← List.card_toFinset]
  cases hd : db.dependencies.rows.filter fun d => c.1 = d.2.dependency with
  | nil =>
    -- the one null has the one text of the id
    have hone : ((db.searchJoin [c]).map fun r =>
        concat (r.2.map (·.2.dependent)) r.1.1.1).toFinset = {concat none c.1} := by
      ext text
      rw [hmem, hd, Finset.mem_singleton]
      simp [Query.orNull, eq_comm]
    rw [hone]
    rfl
  | cons d ds =>
    have hall : ((db.searchJoin [c]).map fun r =>
        concat (r.2.map (·.2.dependent)) r.1.1.1).toFinset =
          (((d :: ds).map (·.2.dependent)).toFinset).image fun dependent =>
            concat (some dependent) c.1 := by
      ext text
      rw [hmem, hd]
      simp [Query.orNull, @eq_comm _ text]
    rw [hall, Finset.card_image_of_injective _ (concat_injective c.1), max_eq_right]
    exact Finset.card_pos.mpr ⟨d.2.dependent, by simp⟩

/-- No two crates of this registry have one name. -/
theorem nodup_names {p : ℕ × CrateRow → Bool} (hp : ∀ c, p c = true → c.2.registry = "") :
    ((db.crates.rows.filter p).map (·.2.name)).Nodup := by
  apply List.Nodup.of_map fun name => (name, "")
  have hkeys : ((db.crates.rows.filter p).map fun r => (r.2.name, r.2.registry)).Nodup :=
    db.crates.nodup_keys.sublist (List.filter_sublist.map _)
  rw [List.map_map]
  rw [List.map_congr_left fun r hr => ?_]
  · exact hkeys
  · rw [Function.comp_apply, hp r (List.mem_filter.mp hr).2]

theorem mem_found : c ∈ db.found queryString ↔ c ∈ db.crates.rows ∧ c.2.registry = "" ∧
    queryString.toList <:+: c.2.name.toList ∧ db.versionsOf c.1 ≠ [] := by
  simp [Db.found, and_assoc]

theorem nodup_found (db : Db) (queryString : String) :
    ((db.found queryString).map (·.2.name)).Nodup :=
  nodup_names fun c hc => by
    simp only [Bool.and_eq_true, decide_eq_true_eq] at hc
    exact hc.1.1

/-- **A row for each crate.** -/
theorem searchRows_perm (db : Db) (queryString : String) :
    (db.searchRows queryString).Perm ((db.found queryString).map db.searchRow) := by
  have hflat : db.searchJoin db.crates.rows =
      db.crates.rows.flatMap fun c => db.searchJoin [c] := by
    unfold Db.searchJoin
    rw [Query.join_eq_flatMap, Query.leftJoin_flatMap]
  let inside (c : ℕ × CrateRow) : Bool := c.2.registry = "" && 0 < position queryString c.2.name
  have hnodup : ((db.crates.rows.filter inside).map fun c =>
      (c.2.name, c.2.description)).Nodup := by
    apply List.Nodup.of_map Prod.fst
    rw [List.map_map]
    refine nodup_names fun c hc => ?_
    simp only [inside, Bool.and_eq_true, decide_eq_true_eq] at hc
    exact hc.1
  have hfound : (db.crates.rows.filter inside).filter (fun c => !(db.searchJoin [c]).isEmpty) =
      db.found queryString := by
    rw [List.filter_filter]
    apply List.filter_congr
    intro c _
    rw [isEmpty_searchJoin, Bool.and_comm]
    simp only [inside, position_pos]
  have hgroups := Query.groupBy_where
    (fun r : SearchJoin => (r.1.1.2.name, r.1.1.2.description)) (f := fun c => db.searchJoin [c])
    (p := fun r => r.1.1.2.registry = "" && 0 < position queryString r.1.1.2.name) (q := inside)
    (fun c _ r hr => by rw [(mem_searchJoin.mp hr).1])
    (fun c _ r hr => by rw [(mem_searchJoin.mp hr).1]) hnodup
  rw [hfound, ← hflat] at hgroups
  refine (hgroups.map SearchRow.ofGroup).trans (List.Perm.of_eq ?_)
  rw [List.map_map]
  rfl

end Rows

/-! ## The results in their order -/

/-- What the rows are sorted by. -/
def SearchRow.rank (row : SearchRow) : ℕᵒᵈ ×ₗ String := toLex (OrderDual.toDual row.count, row.name)

theorem SearchRow.isLE_cmp (a b : SearchRow) : (a.cmp b).isLE = true ↔ a.rank ≤ b.rank := by
  unfold SearchRow.cmp SearchRow.rank
  rw [Prod.Lex.toLex_le_toLex, OrderDual.toDual_lt_toDual, OrderDual.toDual_inj]
  rcases lt_trichotomy a.count b.count with h | h | h
  · rw [compare_lt_iff_lt.mpr h]
    simp [h.ne, h.not_gt]
  · rw [h, compare_eq_iff_eq.mpr rfl]
    simp only [Ordering.isLE_iff_ne_gt, compare_gt_iff_gt, not_lt, lt_irrefl, false_or, true_and]
  · rw [compare_gt_iff_gt.mpr h]
    simp [h]

section Texts

variable (S : Semver) {db : Db}

/-- Texts of versions parse. -/
theorem mapM_parse_display : ∀ vs : List Version,
    (vs.map Version.display).mapM S.parseVersion = some vs
  | [] => rfl
  | v :: vs => by
    rw [List.map_cons, List.mapM_cons, S.parseVersion_display, mapM_parse_display vs]
    rfl

/-- The versions of a row. -/
theorem exists_versions (h : Consistent db) (c : ℕ × CrateRow) {texts : List String}
    (htexts : ∀ text, text ∈ texts ↔ ∃ cv ∈ db.versionsOf c.1, cv.2.version = text) :
    ∃ vs : List Version, texts.mapM S.parseVersion = some vs ∧
      ∀ v, v ∈ vs ↔ ∃ cv ∈ db.versionsOf c.1, cv.2.version = v.display := by
  have hrange : texts ∈ Set.range (List.map Version.display) := by
    rw [Set.range_list_map]
    intro text ht
    obtain ⟨cv, hcv, rfl⟩ := (htexts text).mp ht
    obtain ⟨v, -, hv, -⟩ := h.texts cv (List.mem_of_mem_filter hcv)
    exact ⟨v, hv.symm⟩
  obtain ⟨vs, rfl⟩ := hrange
  refine ⟨vs, mapM_parse_display S vs, fun v => ?_⟩
  rw [← htexts, List.mem_map_of_injective Version.display_injective]

end Texts

/-- The entry of a crate has the greatest of its versions. -/
structure EntryOf [LinearOrder Version] (db : Db) (c : ℕ × CrateRow) (e : SearchResultsEntry) :
    Prop where
  name : e.name = c.2.name
  description : e.description = c.2.description.getD ""
  maxVersion : IsGreatest {v : Version | ∃ cv ∈ db.versionsOf c.1, cv.2.version = v.display}
    e.maxVersion

section Results

variable [LinearOrder Version] (S : Semver) {db : Db} {queryString : String}

/-- **A row is converted.** -/
theorem searchRowToEntry_eq (h : Consistent db) {c : ℕ × CrateRow}
    (hne : db.versionsOf c.1 ≠ []) :
    ∃ e, searchRowToEntry S (db.searchRow c) = some e ∧ EntryOf db c e := by
  obtain ⟨vs, hvs, hmem⟩ := exists_versions S h c (mem_versions db c)
  have hnil : vs ≠ [] := by
    obtain ⟨cv, hcv⟩ := List.exists_mem_of_ne_nil _ hne
    obtain ⟨v, -, hv, -⟩ := h.texts cv (List.mem_of_mem_filter hcv)
    exact List.ne_nil_of_mem ((hmem v).mpr ⟨cv, hcv, hv⟩)
  obtain ⟨m, hm⟩ := Option.isSome_iff_exists.mp (List.isSome_max?_iff.mpr hnil)
  obtain ⟨hin, hle⟩ := List.max?_eq_some_iff.mp hm
  refine ⟨⟨c.2.name, m, c.2.description.getD ""⟩, ?_, rfl, rfl, (hmem m).mp hin, fun v hv => ?_⟩
  · unfold searchRowToEntry
    rw [hvs, Option.bind_some, hm]
    rfl
  · exact hle v ((hmem v).mpr hv)

theorem names_of_entries {cs : List (ℕ × CrateRow)} {es : List SearchResultsEntry}
    (h : List.Forall₂ (EntryOf db) cs es) :
    es.map SearchResultsEntry.name = cs.map (·.2.name) := by
  induction h with
  | nil => rfl
  | cons hc _ ih => rw [List.map_cons, List.map_cons, ih, hc.name]

/-- **What `search` answers**: entries of the crates found, in the order of their rows, as many as
the limit allows. -/
theorem search_eq (h : Consistent db) {arrival : List SearchRow → List SearchRow}
    (harrival : ∀ rows, (arrival rows).Perm rows) (queryString : String) :
    ∃ cs es, cs.Perm (db.found queryString) ∧
      cs.Pairwise (fun a b => (db.searchRow a).rank ≤ (db.searchRow b).rank) ∧
      List.Forall₂ (EntryOf db) cs es ∧
      ∀ limit, search S (fun _ => false) arrival db queryString limit =
        some (.ok ⟨es.take limit, es.length⟩) := by
  let cs := (db.found queryString).mergeSort fun a b =>
    ((db.searchRow a).cmp (db.searchRow b)).isLE
  have hperm : cs.Perm (db.found queryString) := List.mergeSort_perm _ _
  have hmap : cs.map db.searchRow = ((db.found queryString).map db.searchRow).mergeSort
      fun a b => (a.cmp b).isLE := List.map_mergeSort fun _ _ _ _ => rfl
  have hranks : (((db.found queryString).map db.searchRow).map SearchRow.rank).Nodup := by
    apply List.Nodup.of_map fun rank => (ofLex rank).2
    rw [List.map_map, List.map_map]
    exact nodup_found db queryString
  have hrows : (arrival (db.searchRows queryString)).mergeSort (fun a b => (a.cmp b).isLE) =
      cs.map db.searchRow := by
    rw [hmap]
    exact mergeSort_eq_of_perm SearchRow.isLE_cmp
      ((harrival _).trans (searchRows_perm db queryString)) hranks
  obtain ⟨es, hes, hblock⟩ := Query.mapM_block (f := fun c => searchRowToEntry S (db.searchRow c))
    (l := cs) (P := EntryOf db) fun c hc =>
      searchRowToEntry_eq S h (mem_found.mp (hperm.mem_iff.mp hc)).2.2.2
  refine ⟨cs, es, hperm, ?_, hes, fun limit => ?_⟩
  · have hsorted := pairwise_mergeSort_key SearchRow.isLE_cmp
      ((db.found queryString).map db.searchRow)
    rw [← hmap, List.pairwise_map] at hsorted
    exact hsorted
  · unfold search browse
    simp only [Bool.false_eq_true, if_false, Bool.or_self, hrows, ← List.map_take, List.mapM_map]
    have htake := hblock 0 limit
    rw [List.drop_zero, List.drop_zero] at htake
    rw [Function.comp_def, htake, List.length_map, hes.length_eq]
    rfl

end Results

/-! ## The ranks -/

/-- More dependents, or as many and the lesser name. -/
def Precedes (db : Db) (a b : ℕ × CrateRow) : Prop :=
  (db.dependents b.1).card < (db.dependents a.1).card ∨
    (db.dependents a.1).card = (db.dependents b.1).card ∧ a.2.name < b.2.name

/-- **A ranking**: the crates found, each once, those with more dependents first. -/
def Ranked (db : Db) (queryString : String) (r : SearchResults) : Prop :=
  ∃ cs : List (ℕ × CrateRow), cs.Perm (db.found queryString) ∧ cs.Pairwise (Precedes db) ∧
    r.crates.map SearchResultsEntry.name = cs.map (·.2.name)

section Ranks

variable {db : Db} {queryString : String} {a b : ℕ × CrateRow}

theorem rank_le_iff (ha : a ∈ db.found queryString) (hb : b ∈ db.found queryString) :
    (db.searchRow a).rank ≤ (db.searchRow b).rank ↔
      max 1 (db.dependents b.1).card < max 1 (db.dependents a.1).card ∨
        max 1 (db.dependents a.1).card = max 1 (db.dependents b.1).card ∧ a.2.name ≤ b.2.name := by
  unfold SearchRow.rank
  rw [Prod.Lex.toLex_le_toLex, OrderDual.toDual_lt_toDual, OrderDual.toDual_inj,
    count_searchRow (mem_found.mp ha).2.2.2, count_searchRow (mem_found.mp hb).2.2.2]
  rfl

/-- Two elements of a list come in one of the two orders. -/
theorem rel_or_rel {α : Type} {R : α → α → Prop} {l : List α} (h : l.Pairwise R) {a b : α}
    (ha : a ∈ l) (hb : b ∈ l) (hne : a ≠ b) : R a b ∨ R b a := by
  have hsymm : Std.Symm fun a b => R a b ∨ R b a := ⟨fun _ _ => Or.symm⟩
  have hor : l.Pairwise fun a b => R a b ∨ R b a := h.imp Or.inl
  exact hor.forall ha hb hne

theorem eq_of_map_eq {α β : Type} {f : α → β} : ∀ {l m : List α},
    (∀ a ∈ l, ∀ b ∈ m, f a = f b → a = b) → l.map f = m.map f → l = m
  | [], [], _, _ => rfl
  | a :: l, b :: m, hf, h => by
    obtain ⟨hhead, htail⟩ := List.cons.inj h
    rw [hf a List.mem_cons_self b List.mem_cons_self hhead, eq_of_map_eq (fun c hc d hd =>
      hf c (List.mem_cons_of_mem _ hc) d (List.mem_cons_of_mem _ hd)) htail]

/-- The order of the ranks is that of the dependents, but for none and one. -/
theorem precedes_of_rank_le (ha : a ∈ db.found queryString) (hb : b ∈ db.found queryString)
    (hname : a.2.name ≠ b.2.name)
    (hno : (db.dependents a.1).card = 0 → (db.dependents b.1).card = 1 → b.2.name < a.2.name)
    (h : (db.searchRow a).rank ≤ (db.searchRow b).rank) : Precedes db a b := by
  rw [rank_le_iff ha hb] at h
  rcases h with hlt | ⟨heq, hle⟩
  · refine Or.inl ?_
    omega
  · have hlt := lt_of_le_of_ne hle hname
    have h01 : ¬ ((db.dependents a.1).card = 0 ∧ (db.dependents b.1).card = 1) :=
      fun h => absurd (hno h.1 h.2) (not_lt_of_gt hlt)
    by_cases hd : (db.dependents a.1).card = (db.dependents b.1).card
    · exact Or.inr ⟨hd, hlt⟩
    · refine Or.inl ?_
      omega

/-- A crate with a single dependent that comes before one with none has the lesser name. -/
theorem name_le_of_rank_le (ha : a ∈ db.found queryString) (hb : b ∈ db.found queryString)
    (h0 : (db.dependents a.1).card = 0) (h1 : (db.dependents b.1).card = 1)
    (h : (db.searchRow b).rank ≤ (db.searchRow a).rank) : b.2.name ≤ a.2.name := by
  rw [rank_le_iff hb ha, h0, h1] at h
  exact (h.resolve_left (lt_irrefl _)).2

/-- **When the rows come in the order of the ranks.** -/
theorem ranked_iff {cs : List (ℕ × CrateRow)} (hperm : cs.Perm (db.found queryString))
    (hsorted : cs.Pairwise fun a b => (db.searchRow a).rank ≤ (db.searchRow b).rank)
    {r : SearchResults} (hnames : r.crates.map SearchResultsEntry.name = cs.map (·.2.name)) :
    Ranked db queryString r ↔ ∀ a ∈ db.found queryString, ∀ b ∈ db.found queryString,
      (db.dependents a.1).card = 0 → (db.dependents b.1).card = 1 → b.2.name < a.2.name := by
  have hinj : ∀ a ∈ db.found queryString, ∀ b ∈ db.found queryString,
      a.2.name = b.2.name → a = b := fun a ha b hb =>
    List.inj_on_of_nodup_map (nodup_found db queryString) ha hb
  constructor
  · rintro ⟨cs', hperm', hranked, hnames'⟩ a ha b hb h0 h1
    -- the names determine the crates
    obtain rfl : cs = cs' := eq_of_map_eq (fun c hc d hd =>
      hinj c (hperm.mem_iff.mp hc) d (hperm'.mem_iff.mp hd)) (hnames.symm.trans hnames')
    have hne : a ≠ b := by
      rintro rfl
      omega
    have hboth := hsorted.imp₂ (fun _ _ => And.intro) hranked
    rcases rel_or_rel hboth (hperm.mem_iff.mpr ha) (hperm.mem_iff.mpr hb) hne with ⟨-, h⟩ | ⟨h, -⟩
    · unfold Precedes at h
      omega
    · exact lt_of_le_of_ne (name_le_of_rank_le ha hb h0 h1 h) fun e => hne (hinj b hb a ha e).symm
  · intro hno
    refine ⟨cs, hperm, ?_, hnames⟩
    have hnodup : cs.Nodup := hperm.nodup_iff.mpr (List.Nodup.of_map _ (nodup_found db queryString))
    refine (hsorted.and (List.nodup_iff_pairwise_ne.mp hnodup)).imp_of_mem ?_
    rintro a b ha hb ⟨hle, hne⟩
    have ha := hperm.mem_iff.mp ha
    have hb := hperm.mem_iff.mp hb
    exact precedes_of_rank_le ha hb (fun e => hne (hinj a ha b hb e)) (hno a ha b hb) hle

end Ranks

section Claim

variable [LinearOrder Version]

/-- **Exactly when a search ranks by dependents.** In every consistent database, whatever the order
in which Postgres returns the rows, a search that its limit does not cut returns the crates of this
registry that have a version and the query in their name, each once. They come in the order of
their dependents, then of their names, iff no crate without dependents has a lesser name than one
with a single dependent. -/
theorem search_ranks_iff (S : Semver) (db : Db) (h : Consistent db)
    (arrival : List SearchRow → List SearchRow) (harrival : ∀ rows, (arrival rows).Perm rows)
    (queryString : String) (limit : ℕ) (hlimit : (db.found queryString).length ≤ limit) :
    ∃ r, search S (fun _ => false) arrival db queryString limit = some (.ok r) ∧
      (r.crates.map SearchResultsEntry.name).Perm ((db.found queryString).map (·.2.name)) ∧
      (Ranked db queryString r ↔ ∀ a ∈ db.found queryString, ∀ b ∈ db.found queryString,
        (db.dependents a.1).card = 0 → (db.dependents b.1).card = 1 → b.2.name < a.2.name) := by
  obtain ⟨cs, es, hperm, hsorted, hes, hsearch⟩ := search_eq S h harrival queryString
  have hnames := names_of_entries hes
  have hall : es.take limit = es := by
    rw [List.take_eq_self_iff, ← hes.length_eq, hperm.length_eq]
    exact hlimit
  refine ⟨_, hsearch limit, ?_, ?_⟩
  · rw [hall, hnames]
    exact hperm.map _
  · refine ranked_iff hperm hsorted ?_
    rw [hall, hnames]

end Claim

/-- `bar`, which depends on `foo`. -/
def barOnFoo : Publish :=
  { Publish.empty with
    name := "bar"
    deps :=
      [{ name := "foo"
         versionReq := VersionReq.caret 1 2 0
         features := []
         optional := false
         defaultFeatures := true
         target := none
         kind := .normal
         registry := none
         explicitNameInToml := none }] }

/-- `foo`, and then `zoo` that depends on it. -/
def fooAndZoo : List Call :=
  [foo, { barOnFoo with name := "zoo" }].map fun p => ⟨{}, .ok (), .publish p (abcHash [])⟩

/-- A search puts `foo` before the `zoo` that depends on it. -/
theorem search_ranks_zoo : letI : LinearOrder Version := precedence
    let db := Run.final step Db.empty fooAndZoo
    ∃ r, search Semver.canonical (fun _ => false) id db "oo" 10 = some (.ok r) ∧
      (r.crates.map SearchResultsEntry.name).Perm ["foo", "zoo"] ∧ Ranked db "oo" r := by
  let _ : LinearOrder Version := precedence
  intro db
  have hfound : (db.found "oo").map (fun c => (c.2.name, (db.dependents c.1).card)) =
      [("foo", 1), ("zoo", 0)] := by decide +kernel
  have hnames : (db.found "oo").map (·.2.name) = ["foo", "zoo"] := by
    have h := congrArg (List.map Prod.fst) hfound
    rwa [List.map_map] at h
  obtain ⟨r, hr, hperm, hiff⟩ := search_ranks_iff Semver.canonical db (consistent_final fooAndZoo)
    id (fun _ => List.Perm.refl _) "oo" 10 (by
      rw [← List.length_map, hfound]
      decide)
  rw [hnames] at hperm
  refine ⟨r, hr, hperm, hiff.mpr fun a ha b hb h0 h1 => ?_⟩
  have hmem : ∀ c ∈ db.found "oo", (c.2.name, (db.dependents c.1).card) = ("foo", 1) ∨
      (c.2.name, (db.dependents c.1).card) = ("zoo", 0) := by
    intro c hc
    have h := List.mem_map_of_mem (f := fun c => (c.2.name, (db.dependents c.1).card)) hc
    rw [hfound] at h
    simpa using h
  rcases hmem a ha with hm | hm
  · rw [Prod.mk.injEq] at hm
    omega
  rcases hmem b hb with hm' | hm'
  · rw [Prod.mk.injEq] at hm hm'
    rw [hm.1, hm'.1]
    decide
  · rw [Prod.mk.injEq] at hm'
    omega

/-- `foo` and then `bar` are published. -/
def fooAndBar : List Call :=
  [foo, barOnFoo].map fun p => ⟨{}, .ok (), .publish p (abcHash [])⟩

/-- A search for everything puts `bar` before `foo`, which `bar` depends on. -/
theorem search_misranks : letI : LinearOrder Version := precedence
    let db := Run.final step Db.empty fooAndBar
    Consistent db ∧ ∃ r, search Semver.canonical (fun _ => false) id db "" 10 = some (.ok r) ∧
      ¬ Ranked db "" r := by
  let _ : LinearOrder Version := precedence
  intro db
  have hdb : Consistent db := consistent_final fooAndBar
  have hfound : (db.found "").map (fun c => (c.2.name, (db.dependents c.1).card)) =
      [("foo", 1), ("bar", 0)] := by decide +kernel
  have hcrate : ∀ p ∈ [("foo", 1), ("bar", 0)], ∃ c ∈ db.found "",
      (c.2.name, (db.dependents c.1).card) = p := by
    rw [← hfound]
    exact fun p hp => List.mem_map.mp hp
  obtain ⟨b, hb, hb1⟩ := hcrate ("foo", 1) (by decide)
  obtain ⟨a, ha, ha0⟩ := hcrate ("bar", 0) (by decide)
  obtain ⟨cs, es, hperm, hsorted, hes, hsearch⟩ :=
    search_eq Semver.canonical hdb (fun rows => List.Perm.refl (id rows)) ""
  have htake : es.take 10 = es := by
    rw [List.take_eq_self_iff, ← hes.length_eq, hperm.length_eq, ← List.length_map, hfound]
    decide
  refine ⟨hdb, _, hsearch 10, fun h => ?_⟩
  rw [htake] at h
  have hlt := (ranked_iff hperm hsorted (names_of_entries hes)).mp h a ha b hb
    (Prod.mk.inj ha0).2 (Prod.mk.inj hb1).2
  rw [(Prod.mk.inj ha0).1, (Prod.mk.inj hb1).1] at hlt
  exact absurd hlt (by decide)

end PgIndex

end Freighter
