import Freighter.FsIndex.Search
import Freighter.Index.Agreement
import Freighter.Pg.Search

/-!
# The highest version in a search

The filesystem index reports the last version of the file, and the Postgres index the greatest one.

* `firstPublished`: the versions of a crate in the order of their first publishes.
* `HasPublished`, **`hasPublished_final`**: the files have them in this order.
* `mem_versionsOf_iff`: the rows of a crate are what the database knows of it.
* `FsReports`, `PgReports`: what some search says of a crate.
* **`max_version_iff`**: both say the highest version iff it was published last.
-/

namespace Freighter

open FsIndex (IndexOp Records IsCrate releases keyPath accessCrate Lists)

/-! ## Histories -/

/-- The versions of the crate `key`, in the order of their first publishes. -/
def firstPublished (key : String) (ops : List IndexOp) : List Version :=
  ((releases key ops).map fun r => r.1.vers).eraseDups

section Histories

variable {key : String} {ops : List IndexOp} {op : IndexOp} {p : Publish} {ck : Checksum}
  {v : Version}

theorem mem_firstPublished : v ∈ firstPublished key ops ↔
    ∃ p ck, IndexOp.publish p ck ∈ ops ∧ toAsciiLowercase p.name = key ∧ p.vers = v := by
  unfold firstPublished
  rw [List.mem_eraseDups, List.mem_map]
  constructor
  · rintro ⟨⟨p, ck⟩, hr, hv⟩
    obtain ⟨hop, hkey⟩ := FsIndex.mem_releases.mp hr
    exact ⟨p, ck, hop, hkey, hv⟩
  · rintro ⟨p, ck, hop, hkey, hv⟩
    exact ⟨(p, ck), FsIndex.mem_releases.mpr ⟨hop, hkey⟩, hv⟩

theorem eraseDups_concat {α : Type} [DecidableEq α] (l : List α) (a : α) :
    (l ++ [a]).eraseDups = if a ∈ l then l.eraseDups else l.eraseDups ++ [a] := by
  rw [List.eraseDups_append]
  by_cases h : a ∈ l
  · rw [if_pos h, List.removeAll, List.filter_cons_of_neg (by simpa using h)]
    simp
  · rw [if_neg h, List.removeAll, List.filter_cons_of_pos (by simpa using h)]
    simp [List.eraseDups_cons]

theorem firstPublished_other (h : releases key [op] = []) :
    firstPublished key (ops ++ [op]) = firstPublished key ops := by
  unfold firstPublished
  rw [FsIndex.releases_concat, h, List.append_nil]

/-- **What a publish adds**: the version, if it is new. -/
theorem firstPublished_publish (h : toAsciiLowercase p.name = key) :
    firstPublished key (ops ++ [.publish p ck]) =
      if p.vers ∈ firstPublished key ops then firstPublished key ops
      else firstPublished key ops ++ [p.vers] := by
  unfold firstPublished
  rw [FsIndex.releases_concat, FsIndex.releases_publish_self h, List.map_append, List.map_singleton,
    eraseDups_concat]
  simp only [List.mem_eraseDups]

end Histories

/-! ## The files -/

section Files

open FsIndex (Files HasEntries Effect CrateMetaPath crateMetaFileRelPath)

variable {L : Libs} {key : String} {ops calls : List IndexOp} {op : IndexOp} {files : Files}
  {m : CrateMetaPath}

/-- The files record releases, those of each crate in the order of its first publishes. -/
def HasPublished (L : Libs) (ops : List IndexOp) (files : Files) : Prop :=
  ∃ calls, Records L files calls ∧ ∀ key, crateMetaFileRelPath key = some (keyPath key) →
    (releases key calls).map (fun r => r.1.vers) = firstPublished key ops

theorem exists_hasEntries (h : Records L files calls)
    (hkey : crateMetaFileRelPath key = some (keyPath key)) :
    ∃ entries, HasEntries L files (keyPath key) entries := by
  by_cases hcrate : IsCrate key calls
  · obtain ⟨entries, hc, -⟩ := h.file key hcrate
    exact ⟨entries, Or.inr ⟨_, hc⟩⟩
  · refine ⟨[], Or.inl ⟨?_, rfl⟩⟩
    by_contra hlive
    obtain ⟨key', hcrate', hpath⟩ := h.live_iff.mp hlive
    rw [h.key_eq hcrate' hkey hpath] at hcrate'
    exact hcrate hcrate'

theorem run_publish (L : Libs) (files : Files) (p : Publish) (ck : Checksum) :
    ((IndexOp.publish p ck).run L files).2 =
      (FsIndex.publish L {} files p ck (fun _ w => (.ok (), w)) ()).2.1 := by
  unfold IndexOp.run
  dsimp only

theorem run_yank (L : Libs) (files : Files) (crateName : String) (version : Version) (flag : Bool) :
    ((IndexOp.yank crateName version flag).run L files).2 =
      (FsIndex.yankInner L {} files crateName version flag).2 := by
  unfold IndexOp.run
  dsimp only

/-- A call whose name is not allowed. -/
theorem run_of_error {e : IndexError} (hm : accessCrate op.crateName = .error e) :
    (op.run L files).2 = files := by
  cases op with
  | publish p ck =>
    change accessCrate p.name = .error e at hm
    rw [run_publish]
    unfold FsIndex.publish
    rw [hm]
  | yank crateName version flag =>
    change accessCrate crateName = .error e at hm
    rw [run_yank]
    unfold FsIndex.yankInner
    rw [hm]
  | confirm crateName version => rfl

/-- A call whose name is allowed takes effect or leaves the files. -/
theorem run_effect (L : Libs) (files : Files) (op : IndexOp) :
    (op.run L files).2 = files ∨ Effect L files (op.run L files).2 op := by
  cases op with
  | publish p ck =>
    rw [run_publish]
    exact (FsIndex.publish_effect L {} files p ck _ ()).imp_left And.right
  | yank crateName version flag =>
    rw [run_yank]
    exact FsIndex.yankInner_effect L {} files crateName version flag
  | confirm crateName version => exact Or.inl rfl

/-- A call that publishes no crate. -/
theorem HasPublished.other (h : HasPublished L ops files) (hop : ∀ key, releases key [op] = []) :
    HasPublished L (ops ++ [op]) (op.run L files).2 := by
  obtain ⟨calls, hr, hvers⟩ := h
  have hsame : ∀ key, firstPublished key (ops ++ [op]) = firstPublished key ops := fun key =>
    firstPublished_other (hop key)
  have hfiles : (op.run L files).2 = files → HasPublished L (ops ++ [op]) (op.run L files).2 := by
    intro hrun
    rw [hrun]
    exact ⟨calls, hr, fun key hkey => (hvers key hkey).trans (hsame key).symm⟩
  cases hm : accessCrate op.crateName with
  | error e => exact hfiles (run_of_error hm)
  | ok m =>
    rcases run_effect L files op with hrun | he
    · exact hfiles hrun
    · refine ⟨calls ++ [op], FsIndex.records_effect hr hm he, fun key hkey => ?_⟩
      rw [FsIndex.releases_concat, hop, List.append_nil, hvers key hkey, hsame]

/-- The files after a call that writes. -/
theorem records_run {c : FsIndex.Contents} (h : Records L files calls)
    (hm : accessCrate op.crateName = .ok m)
    (hwrites : op.Writes L (FsIndex.pullFile false files op.relPath) c) :
    Records L (op.run L files).2 (calls ++ [op]) := by
  have heffect := FsIndex.effect_of_writes hwrites
  rw [FsIndex.run_of_writes hm hwrites]
  dsimp only
  exact FsIndex.records_effect h hm heffect

section Publish

variable {p : Publish} {ck : Checksum}

theorem firstPublished_ne (h : toAsciiLowercase p.name ≠ key) :
    firstPublished key (ops ++ [.publish p ck]) = firstPublished key ops := by
  have hnone : releases key [.publish p ck] = [] := FsIndex.releases_of_ne h
  exact firstPublished_other hnone

/-- The file of a crate has an entry for each version, in their order. -/
theorem exists_entries (hr : Records L files calls)
    (hvers : ∀ key, crateMetaFileRelPath key = some (keyPath key) →
      (releases key calls).map (fun r => r.1.vers) = firstPublished key ops)
    (hkey : crateMetaFileRelPath key = some (keyPath key)) :
    ∃ entries, HasEntries L files (keyPath key) entries ∧
      entries.map CrateVersion.vers = firstPublished key ops := by
  obtain ⟨entries, hentries⟩ := exists_hasEntries hr hkey
  have hmap := congrArg (List.map CrateVersion.vers) (hr.of_hasEntries hkey hentries)
  rw [List.map_map, List.map_map] at hmap
  exact ⟨entries, hentries, hmap.trans (hvers key hkey)⟩

theorem allowed_of_accessCrate (hm : accessCrate p.name = .ok m) :
    m.relPath = keyPath (toAsciiLowercase p.name) ∧
      crateMetaFileRelPath (toAsciiLowercase p.name) =
        some (keyPath (toAsciiLowercase p.name)) := by
  obtain ⟨hkey, hallowed⟩ := FsIndex.accessCrate_eq_ok.mp hm
  have hrel := FsIndex.accessCrate_relPath hm
  rw [hkey, hrel] at hallowed
  exact ⟨hrel, hallowed⟩

/-- A publish of a version that is there. -/
theorem HasPublished.duplicate (h : HasPublished L ops files) (hm : accessCrate p.name = .ok m)
    (hold : p.vers ∈ firstPublished (toAsciiLowercase p.name) ops) :
    HasPublished L (ops ++ [.publish p ck]) ((IndexOp.publish p ck).run L files).2 := by
  obtain ⟨calls, hr, hvers⟩ := h
  obtain ⟨hrel, hallowed⟩ := allowed_of_accessCrate hm
  obtain ⟨entries, hentries, hfirst⟩ := exists_entries hr hvers hallowed
  have hknown : FsIndex.known entries p.vers ≠ none := by
    rw [FsIndex.known_ne_none]
    rw [← hfirst] at hold
    exact List.mem_map.mp hold
  have hrun : FsIndex.publish L {} files p ck (fun _ w => (.ok (), w)) () =
      (.error (FsIndex.alreadyExists p), files, ()) :=
    FsIndex.publish_conflict hm (by rw [hrel]; exact FsIndex.holds_of_known hentries hknown)
  rw [run_publish, hrun]
  dsimp only
  refine ⟨calls, hr, fun key hkey => (hvers key hkey).trans ?_⟩
  by_cases hne : toAsciiLowercase p.name = key
  · subst hne
    rw [firstPublished_publish rfl, if_pos hold]
  · rw [firstPublished_ne hne]

/-- A publish of a new version. -/
theorem HasPublished.fresh (h : HasPublished L ops files) (hm : accessCrate p.name = .ok m)
    (hnew : p.vers ∉ firstPublished (toAsciiLowercase p.name) ops) :
    HasPublished L (ops ++ [.publish p ck]) ((IndexOp.publish p ck).run L files).2 := by
  obtain ⟨calls, hr, hvers⟩ := h
  obtain ⟨-, hallowed⟩ := allowed_of_accessCrate hm
  obtain ⟨entries, hentries, hfirst⟩ := exists_entries hr hvers hallowed
  have hknown : FsIndex.known entries p.vers = none := by
    rw [FsIndex.known_eq_none]
    intro e he hvers'
    rw [← hfirst] at hnew
    exact hnew (List.mem_map.mpr ⟨e, he, hvers'⟩)
  obtain ⟨contents, hcontents⟩ := (FsIndex.publishContents_ok (c := ck)).mpr
    (FsIndex.lacks_of_known hentries hknown)
  have hname : accessCrate (IndexOp.publish p ck).crateName = .ok m := hm
  have hrecords := records_run hr hname hcontents
  refine ⟨calls ++ [.publish p ck], hrecords, fun key hkey => ?_⟩
  rw [FsIndex.releases_concat, List.map_append, hvers key hkey]
  by_cases hne : toAsciiLowercase p.name = key
  · subst hne
    rw [firstPublished_publish rfl, if_neg hnew, FsIndex.releases_publish_self rfl]
    rfl
  · have hnone : releases key [.publish p ck] = [] := FsIndex.releases_of_ne hne
    rw [hnone, firstPublished_ne hne, List.map_nil, List.append_nil]

/-- A publish under a name that is not allowed. -/
theorem HasPublished.refused {e : IndexError} (h : HasPublished L ops files)
    (hm : accessCrate p.name = .error e) :
    HasPublished L (ops ++ [.publish p ck]) ((IndexOp.publish p ck).run L files).2 := by
  obtain ⟨calls, hr, hvers⟩ := h
  have hname : accessCrate (IndexOp.publish p ck).crateName = .error e := hm
  rw [run_of_error hname]
  refine ⟨calls, hr, fun key hkey => ?_⟩
  have hne : toAsciiLowercase p.name ≠ key := by
    intro hne
    have hok : accessCrate p.name = .ok ⟨key, keyPath key⟩ :=
      FsIndex.accessCrate_eq_ok.mpr ⟨hne.symm, hkey⟩
    exact absurd (hok.symm.trans hm) (by simp)
  rw [hvers key hkey, firstPublished_ne hne]

/-- **A publish.** -/
theorem HasPublished.publish (h : HasPublished L ops files) :
    HasPublished L (ops ++ [.publish p ck]) ((IndexOp.publish p ck).run L files).2 := by
  cases hm : accessCrate p.name with
  | error e => exact h.refused hm
  | ok m =>
    by_cases hnew : p.vers ∈ firstPublished (toAsciiLowercase p.name) ops
    · exact h.duplicate hm hnew
    · exact h.fresh hm hnew

end Publish

/-- **After every history** the files have the versions in the order of their first publishes. -/
theorem hasPublished_final (L : Libs) (ops : List IndexOp) :
    HasPublished L ops (Run.final (fsStep L) (fun _ => none) ops) := by
  induction ops using List.reverseRecOn with
  | nil => exact ⟨[], FsIndex.records_empty L, fun _ _ => rfl⟩
  | append_singleton ops op ih =>
    rw [Run.final_concat]
    change HasPublished L (ops ++ [op]) (op.run L _).2
    cases op with
    | publish p ck => exact ih.publish
    | yank crateName version flag => exact ih.other fun _ => rfl
    | confirm crateName version => exact ih.other fun _ => rfl

end Files

/-! ## The database -/

section Database

open PgIndex (Db Consistent CrateRow VersionRow)

variable {db : Db} {c : ℕ × CrateRow} {v : Version} {ops : List IndexOp}

/-- **The rows of a crate are what the database knows of it.** -/
theorem mem_versionsOf_iff (h : Consistent db) (hc : c ∈ db.crates.rows)
    (hregistry : c.2.registry = "") :
    (∃ cv ∈ db.versionsOf c.1, cv.2.version = v.display) ↔
      (PgIndex.known db c.2.name v).isSome := by
  have hnamed : (c.1, c.2.name, "") ∈ db.named := PgIndex.mem_named.mpr ⟨c, hc, rfl, rfl, hregistry⟩
  rw [Option.isSome_iff_ne_none, Ne, PgIndex.known_eq_none h]
  constructor
  · rintro ⟨cv, hcv, hv⟩
    obtain ⟨hcv, hid⟩ := List.mem_filter.mp hcv
    rw [decide_eq_true_eq] at hid
    rw [hid] at hnamed
    exact List.ne_nil_of_mem (List.mem_filter.mpr ⟨hcv, PgIndex.selects_iff.mpr ⟨hv, hnamed⟩⟩)
  · intro hne
    obtain ⟨cv, hcv⟩ := List.exists_mem_of_ne_nil _ hne
    obtain ⟨hcv, hselects⟩ := List.mem_filter.mp hcv
    obtain ⟨hv, hid⟩ := PgIndex.selects_iff.mp hselects
    exact ⟨cv, List.mem_filter.mpr ⟨hcv, decide_eq_true (PgIndex.eq_of_named_name hnamed hid)⟩, hv⟩

/-- The database shows the catalog of what was published. -/
theorem shows_final (ops : List IndexOp) : PgIndex.Shows (Run.final pgStep Db.empty ops)
    (Run.final (Catalog.step PgIndex.refusals) Catalog.empty ops) := by
  induction ops using List.reverseRecOn with
  | nil => exact PgIndex.shows_empty
  | append_singleton ops op ih =>
    rw [Run.final_concat, Run.final_concat]
    exact (PgIndex.step_shows ih op).2

theorem known_final (name : String) (v : Version) (ops : List IndexOp) :
    (PgIndex.known (Run.final pgStep Db.empty ops) name v).isSome ↔
      ∃ p ck, IndexOp.publish p ck ∈ ops ∧ p.name = name ∧ p.vers = v := by
  rw [(shows_final ops).known, Catalog.isSome_final]
  constructor
  · rintro (h | ⟨op, hop, p, ck, rfl, hname, hvers⟩)
    · exact absurd h Bool.false_ne_true
    · exact ⟨p, ck, hop, hname, hvers⟩
  · rintro ⟨p, ck, hop, hname, hvers⟩
    exact Or.inr ⟨_, hop, p, ck, rfl, hname, hvers⟩

end Database

/-! ## What a search says of a crate -/

/-- Some search of the files has the result, which is of the crate `key`. -/
def FsReports (L : Libs) (files : FsIndex.Files) (key : String) (e : SearchResultsEntry) : Prop :=
  ∃ keys listPrefix completion times fails queryString limit r,
    Lists files keys ∧ listPrefix "index/" = .ok keys ∧
    (∀ ks : List String, (completion ks).Perm ks) ∧
    FsIndex.search L completion listPrefix (FsIndex.pullFrom times fails files) queryString limit =
      .ok r ∧
    e ∈ r.crates ∧ toAsciiLowercase e.name = key

/-- Some search of the database has the result, which is of the crate `name`. -/
def PgReports [LinearOrder Version] (S : Semver) (db : PgIndex.Db) (name : String)
    (e : SearchResultsEntry) : Prop :=
  ∃ arrival queryString limit r, (∀ rows, (arrival rows).Perm rows) ∧
    PgIndex.search S (fun _ => false) arrival db queryString limit = some (.ok r) ∧
    e ∈ r.crates ∧ e.name = name

section Reports

open FsIndex (Files CrateMetaPath crateMetaFileRelPath)

variable {L : Libs} {files : Files} {calls ops : List IndexOp} {key name : String}
  {e : SearchResultsEntry}

/-- The filesystem index says the version of the last release. -/
theorem FsReports.last (h : FsReports L files key e) (hr : Records L files calls) :
    ∃ p ck, (releases key calls).getLast? = some (p, ck) ∧ p.vers = e.maxVersion := by
  obtain ⟨keys, listPrefix, completion, times, fails, queryString, limit, r, hl, hkeys, hperm,
    hsearch, he, rfl⟩ := h
  have hresults : e ∈ ((completion ((keys.filter (FsIndex.containsText queryString)).take
      (min limit 100))).map (FsIndex.fetch L (FsIndex.pullFrom times fails files))).filterMap
        FsIndex.searchEntry := by
    unfold FsIndex.search at hsearch
    rw [hkeys] at hsearch
    cases hsearch
    exact he
  have hlive : ∀ k ∈ completion ((keys.filter (FsIndex.containsText queryString)).take
      (min limit 100)), files k ≠ none := by
    intro k hk
    rw [← hl.mem]
    exact List.mem_of_mem_filter (List.mem_of_mem_take ((hperm _).mem_iff.mp hk))
  obtain ⟨p, ck, hlast, hvers, -⟩ := hr.last_of_mem_results hlive hresults
  exact ⟨p, ck, hlast, hvers⟩

theorem exists_lists (h : Records L files calls) (hcrate : IsCrate key calls) :
    ∃ others, Lists files (keyPath key :: others) := by
  have hfinite : {path | files path ≠ none}.Finite := by
    refine ((FsIndex.finite_crates calls).image keyPath).subset fun path hlive => ?_
    exact h.live_iff.mp hlive
  have hperm : hfinite.toFinset.toList.Perm
      (keyPath key :: hfinite.toFinset.toList.erase (keyPath key)) := by
    apply List.perm_cons_erase
    rw [Finset.mem_toList, Set.Finite.mem_toFinset]
    exact h.live_iff.mpr ⟨key, hcrate, rfl⟩
  refine ⟨_, hperm.nodup_iff.mp hfinite.toFinset.nodup_toList, fun k => ?_⟩
  rw [← hperm.mem_iff, Finset.mem_toList, Set.Finite.mem_toFinset]
  rfl

/-- Some search finds the crate. -/
theorem exists_fsReports (h : Records L files calls) (hcrate : IsCrate key calls) :
    ∃ e, FsReports L files key e := by
  obtain ⟨others, hl⟩ := exists_lists h hcrate
  obtain ⟨fails, hfails⟩ : ∃ fails : String → Bool, ∀ k, fails k = false :=
    ⟨fun _ => false, fun _ => rfl⟩
  obtain ⟨p, ck, hlast, hentry⟩ := h.searchEntry_eq (fun _ => none) hcrate (hfails _)
  refine ⟨⟨p.name, p.vers, p.description.getD ""⟩, keyPath key :: others, fun _ => .ok _, id,
    fun _ => none, fails, "", 1, _, hl, rfl, fun ks => List.Perm.refl ks, rfl, ?_, ?_⟩
  · rw [FsIndex.filter_containsText_empty]
    exact List.mem_filterMap.mpr ⟨_, List.mem_cons_self, hentry⟩
  · exact FsIndex.key_of_last hlast

/-- **The filesystem index says the version that was published last.** -/
theorem FsReports.maxVersion (h : FsReports L (Run.final (fsStep L) (fun _ => none) ops) key e) :
    (firstPublished key ops).getLast? = some e.maxVersion := by
  obtain ⟨calls, hr, hvers⟩ := hasPublished_final L ops
  obtain ⟨p, ck, hlast, hp⟩ := h.last hr
  have hcrate : IsCrate key calls := List.ne_nil_of_mem (List.mem_of_getLast? hlast)
  rw [← hvers key (hr.allowed key hcrate), List.getLast?_map, hlast]
  exact congrArg some hp

variable (L) in
/-- The crate of a publish is among those that the files record. -/
theorem exists_records {p : Publish} {ck : Checksum} {m : CrateMetaPath}
    (hm : accessCrate p.name = .ok m) (hp : IndexOp.publish p ck ∈ ops) :
    ∃ calls, Records L (Run.final (fsStep L) (fun _ => none) ops) calls ∧ IsCrate m.key calls := by
  obtain ⟨calls, hr, hvers⟩ := hasPublished_final L ops
  obtain ⟨-, hallowed⟩ := allowed_of_accessCrate hm
  refine ⟨calls, hr, fun hnil => ?_⟩
  rw [(FsIndex.accessCrate_eq_ok.mp hm).1] at hnil
  have hmem : p.vers ∈ firstPublished (toAsciiLowercase p.name) ops :=
    mem_firstPublished.mpr ⟨p, ck, hp, rfl, rfl⟩
  rw [← hvers _ hallowed, hnil] at hmem
  cases hmem

variable [LinearOrder Version] {S : Semver} {db : PgIndex.Db}

/-- The Postgres index says the greatest version it knows. -/
theorem PgReports.known (h : PgReports S db name e) (hc : PgIndex.Consistent db) :
    IsGreatest {v | (PgIndex.known db name v).isSome} e.maxVersion := by
  obtain ⟨arrival, queryString, limit, r, hperm, hsearch, he, rfl⟩ := h
  obtain ⟨cs, es, hcs, -, hes, heq⟩ := PgIndex.search_eq S hc hperm queryString
  rw [heq limit] at hsearch
  cases hsearch
  obtain ⟨c, hmem, hentry⟩ := Query.exists_of_mem_right hes (List.mem_of_mem_take he)
  obtain ⟨hrow, hregistry, -⟩ := PgIndex.mem_found.mp (hcs.mem_iff.mp hmem)
  have hmax := hentry.maxVersion
  simp only [mem_versionsOf_iff hc hrow hregistry, ← hentry.name] at hmax
  exact hmax

/-- Some search finds the crate. -/
theorem exists_pgReports {v : Version} (S : Semver) (hc : PgIndex.Consistent db)
    (hv : (PgIndex.known db name v).isSome) : ∃ e, PgReports S db name e := by
  rw [Option.isSome_iff_ne_none, Ne, PgIndex.known_eq_none hc] at hv
  obtain ⟨cv, hcv⟩ := List.exists_mem_of_ne_nil _ hv
  obtain ⟨hrows, hselects⟩ := List.mem_filter.mp hcv
  obtain ⟨c, hrow, hid, rfl, hregistry⟩ := PgIndex.mem_named.mp (PgIndex.selects_iff.mp hselects).2
  have hversions : cv ∈ db.versionsOf c.1 := List.mem_filter.mpr ⟨hrows, decide_eq_true hid⟩
  have hfound : c ∈ db.found c.2.name := PgIndex.mem_found.mpr
    ⟨hrow, hregistry, List.infix_refl _, List.ne_nil_of_mem hversions⟩
  obtain ⟨cs, es, hcs, -, hes, heq⟩ :=
    PgIndex.search_eq S hc (fun rows => List.Perm.refl (id rows)) c.2.name
  obtain ⟨e, he, hentry⟩ := Query.exists_of_mem_left hes (hcs.mem_iff.mpr hfound)
  refine ⟨e, id, c.2.name, es.length, _, fun rows => List.Perm.refl rows, heq _, ?_, hentry.name⟩
  rw [List.take_length]
  exact he

/-- **The Postgres index says the greatest version that was published.** -/
theorem PgReports.maxVersion (h : PgReports S (Run.final pgStep PgIndex.Db.empty ops) name e) :
    IsGreatest {v | ∃ p ck, IndexOp.publish p ck ∈ ops ∧ p.name = name ∧ p.vers = v}
      e.maxVersion := by
  have hmax := h.known (shows_final ops).consistent
  simp only [known_final] at hmax
  exact hmax

variable (L S) in
/-- **Exactly when both indexes report the highest version.** After every sequence of publishes,
yanks and unyanks, both indexes have searches that find a crate that was published, and whatever
they are, both report its greatest version iff the version whose first publish came last is the
greatest one (and is of the crate under its name, if the name is spelled in several ways). -/
theorem max_version_iff (ops : List IndexOp) (name : String) (m : CrateMetaPath)
    (hm : accessCrate name = .ok m) (hname : ∃ p ck, .publish p ck ∈ ops ∧ p.name = name) :
    (∃ e e', FsReports L (Run.final (fsStep L) (fun _ => none) ops) m.key e ∧
      PgReports S (Run.final pgStep PgIndex.Db.empty ops) name e') ∧
    ∀ e e', FsReports L (Run.final (fsStep L) (fun _ => none) ops) m.key e →
      PgReports S (Run.final pgStep PgIndex.Db.empty ops) name e' →
      (IsGreatest {v | v ∈ firstPublished m.key ops} e.maxVersion ∧
          e'.maxVersion = e.maxVersion ↔
        ∃ v, (firstPublished m.key ops).getLast? = some v ∧
          (∀ u ∈ firstPublished m.key ops, u ≤ v) ∧
          ∃ p ck, .publish p ck ∈ ops ∧ p.name = name ∧ p.vers = v) := by
  have hkey := (FsIndex.accessCrate_eq_ok.mp hm).1
  constructor
  · obtain ⟨p, ck, hp, rfl⟩ := hname
    obtain ⟨calls, hr, hcrate⟩ := exists_records L hm hp
    obtain ⟨e, he⟩ := exists_fsReports hr hcrate
    obtain ⟨e', he'⟩ := exists_pgReports S (shows_final ops).consistent
      ((known_final p.name p.vers ops).mpr ⟨p, ck, hp, rfl, rfl⟩)
    exact ⟨e, e', he, he'⟩
  · intro e e' he he'
    have hlast := he.maxVersion
    have hmax := he'.maxVersion
    rw [hlast]
    simp only [Option.some.injEq, exists_eq_left']
    constructor
    · rintro ⟨hgreatest, heq⟩
      rw [heq] at hmax
      exact ⟨hgreatest.2, hmax.1⟩
    · rintro ⟨hle, hp⟩
      refine ⟨⟨List.mem_of_getLast? hlast, hle⟩, hmax.unique ⟨hp, ?_⟩⟩
      rintro v ⟨p, ck, hv, hspelled, hvers⟩
      rw [← hspelled] at hkey
      exact hle v (mem_firstPublished.mpr ⟨p, ck, hv, hkey.symm, hvers⟩)

end Reports

/-- `foo 2.0.0` and then `foo 1.0.1`. -/
def backport : List IndexOp :=
  [.publish { foo with vers := Version.new 2 0 0 } (abcHash []),
    .publish { foo with vers := Version.new 1 0 1 } (abcHash [])]

theorem firstPublished_backport :
    firstPublished "foo" backport = [Version.new 2 0 0, Version.new 1 0 1] := by decide

theorem lt_backport : letI : LinearOrder Version := precedence
    Version.new 1 0 1 < Version.new 2 0 0 := by
  let _ : LinearOrder Version := precedence
  change (Version.new 1 0 1).key < (Version.new 2 0 0).key
  exact Prod.Lex.toLex_lt_toLex.mpr (Or.inl (by decide))

/-- `foo 1.0.1`, a higher version of another crate, and then `foo 2.0.0`. -/
def upgrade : List IndexOp :=
  [.publish { foo with vers := Version.new 1 0 1 } (abcHash []),
    .publish { foo with name := "bar", vers := Version.new 3 0 0 } (abcHash []),
    .publish { foo with vers := Version.new 2 0 0 } (abcHash [])]

/-- Both indexes report the upgrade. -/
theorem max_version_upgrade : letI : LinearOrder Version := precedence
    ∃ e e', FsReports Libs.canonical
        (Run.final (fsStep Libs.canonical) (fun _ => none) upgrade) "foo" e ∧
      PgReports Semver.canonical (Run.final pgStep PgIndex.Db.empty upgrade) "foo" e' ∧
      IsGreatest {v | v ∈ firstPublished "foo" upgrade} e.maxVersion ∧
      e'.maxVersion = e.maxVersion := by
  let _ : LinearOrder Version := precedence
  have hpublished : firstPublished "foo" upgrade = [Version.new 1 0 1, Version.new 2 0 0] := by
    decide
  have hlast : .publish { foo with vers := Version.new 2 0 0 } (abcHash []) ∈ upgrade := by
    simp [upgrade]
  obtain ⟨⟨e, e', he, he'⟩, hiff⟩ := max_version_iff Libs.canonical Semver.canonical upgrade "foo"
    ⟨"foo", "index/3/f/foo"⟩ (by decide) ⟨_, _, hlast, rfl⟩
  refine ⟨e, e', he, he', (hiff e e' he he').mpr ⟨Version.new 2 0 0, ?_, ?_, _, _, hlast, rfl, rfl⟩⟩
  · rw [hpublished]
    rfl
  · rw [hpublished]
    intro u hu
    rcases List.mem_pair.mp hu with rfl | rfl
    · exact lt_backport.le
    · exact le_refl _

/-- A backport hides the highest version from the filesystem index. -/
theorem max_version_backport : letI : LinearOrder Version := precedence
    ∃ e e', FsReports Libs.canonical
        (Run.final (fsStep Libs.canonical) (fun _ => none) backport) "foo" e ∧
      PgReports Semver.canonical (Run.final pgStep PgIndex.Db.empty backport) "foo" e' ∧
      e.maxVersion = Version.new 1 0 1 ∧ e'.maxVersion = Version.new 2 0 0 ∧
      ¬ IsGreatest {v | v ∈ firstPublished "foo" backport} e.maxVersion := by
  let _ : LinearOrder Version := precedence
  have hlt : Version.new 1 0 1 < Version.new 2 0 0 := lt_backport
  obtain ⟨calls, hr, hvers⟩ := hasPublished_final Libs.canonical backport
  have hversions := hvers "foo" (by decide)
  rw [firstPublished_backport] at hversions
  have hcrate : IsCrate "foo" calls := by
    intro hnil
    rw [hnil] at hversions
    cases hversions
  obtain ⟨e, he⟩ := exists_fsReports hr hcrate
  obtain ⟨e', he'⟩ := exists_pgReports Semver.canonical (shows_final backport).consistent
    ((known_final "foo" (Version.new 2 0 0) backport).mpr
      ⟨_, _, List.mem_cons_self, rfl, rfl⟩)
  have hlast := he.maxVersion
  rw [firstPublished_backport] at hlast
  have hfs : e.maxVersion = Version.new 1 0 1 := (Option.some.inj hlast).symm
  obtain ⟨⟨p, ck, hp, hname, hv⟩, hle⟩ := he'.maxVersion
  have htop : Version.new 2 0 0 ≤ e'.maxVersion :=
    hle ⟨_, _, List.mem_cons_self, rfl, rfl⟩
  have hpg : e'.maxVersion = Version.new 2 0 0 := by
    have hkey : toAsciiLowercase p.name = "foo" := by
      rw [hname]
      decide
    have hmem : e'.maxVersion ∈ firstPublished "foo" backport :=
      mem_firstPublished.mpr ⟨p, ck, hp, hkey, hv⟩
    rw [firstPublished_backport, List.mem_pair] at hmem
    rcases hmem with hmem | hmem
    · exact hmem
    · rw [hmem] at htop
      exact absurd hlt htop.not_gt
  refine ⟨e, e', he, he', hfs, hpg, fun hmax => ?_⟩
  rw [hfs, firstPublished_backport] at hmax
  exact (hmax.2 List.mem_cons_self).not_gt hlt

end Freighter
