import Freighter.Index.Catalog
import Freighter.Pg.Consistent

/-!
# The Postgres index as a catalog

* `known`: what the database knows of a version; `Shows`: it knows what the catalog does;
* `insertRelease_known`, `insertRelease_new`: when nothing fails, the transaction goes through iff
  the version is new;
* **`step_shows`**: a call that nothing disturbs answers as the catalog does and leaves a database
  that shows the next one.
-/

namespace Freighter

namespace PgIndex

open FsIndex (IndexOp Outcome)

/-- How the Postgres index refuses. -/
def refusals : Catalog.Refusals where
  duplicate _ := .conflict "Failed to insert version"
  missing := .conflict "Tried to set yank status to an identical status"

/-- A call that nothing disturbs. -/
def Call.undisturbed (op : IndexOp) : Call := ⟨{}, .ok (), op⟩

/-- What `confirm-existence.sql` finds. -/
def known (db : Db) (name : String) (version : Version) : Option CrateVersionExists :=
  (db.versionRows name version.display).head?.bind fun row =>
    (fromHex row.2.cksum).map fun ck => ⟨row.2.yanked, ck⟩

/-- A consistent database that knows what the catalog does. -/
structure Shows (db : Db) (c : Catalog) : Prop where
  consistent : Consistent db
  known : ∀ name version, known db name version = c name version

/-! ## The rows of a version -/

section Rows

variable {db db' : Db} {name n text : String} {version v : Version} {row : ℕ × VersionRow}

theorem selects_iff : db.selects name text row = true ↔
    row.2.version = text ∧ (row.2.crate, name, "") ∈ db.named := by
  simp only [Db.selects, Bool.and_eq_true, decide_eq_true_eq, List.any_eq_true, mem_named,
    and_assoc]

/-- A version has at most one row. -/
theorem versionRows_cases (db : Db) (name text : String) :
    db.versionRows name text = [] ∨ ∃ row, db.versionRows name text = [row] := by
  have hnodup : (db.versionRows name text).Nodup :=
    (List.Nodup.of_map _ db.crateVersions.nodup_ids).filter _
  have heq : ∀ r ∈ db.versionRows name text, ∀ s ∈ db.versionRows name text, r = s := by
    intro r hr s hs
    obtain ⟨hr, hselr⟩ := List.mem_filter.mp hr
    obtain ⟨hs, hsels⟩ := List.mem_filter.mp hs
    obtain ⟨hr1, hr2⟩ := selects_iff.mp hselr
    obtain ⟨hs1, hs2⟩ := selects_iff.mp hsels
    apply Table.eq_of_key hr hs
    exact Prod.ext (eq_of_named_name hr2 hs2) (hr1.trans hs1.symm)
  cases hrows : db.versionRows name text with
  | nil => exact Or.inl rfl
  | cons r rest =>
    rw [hrows] at hnodup heq
    cases rest with
    | nil => exact Or.inr ⟨r, rfl⟩
    | cons s rest =>
      have hrs := heq r (by simp) s (by simp)
      rw [List.nodup_cons] at hnodup
      exact absurd (by simp [hrs]) hnodup.1

theorem known_of_nil (h : db.versionRows name version.display = []) :
    known db name version = none := by
  unfold known
  rw [h]
  rfl

theorem known_of_singleton (hc : Consistent db)
    (h : db.versionRows name version.display = [row]) :
    ∃ ck, fromHex row.2.cksum = some ck ∧ known db name version = some ⟨row.2.yanked, ck⟩ := by
  have hmem : row ∈ db.versionRows name version.display := by
    rw [h]
    exact List.mem_singleton_self _
  obtain ⟨-, ck, -, hck⟩ := hc.texts row (List.mem_of_mem_filter hmem)
  refine ⟨ck, by rw [hck, fromHex_hexEncode], ?_⟩
  unfold known
  rw [h]
  simp [hck]

theorem known_eq_none (hc : Consistent db) :
    known db name version = none ↔ db.versionRows name version.display = [] := by
  refine ⟨fun h => ?_, known_of_nil⟩
  rcases versionRows_cases db name version.display with hrows | ⟨row, hrows⟩
  · exact hrows
  · obtain ⟨ck, -, hknown⟩ := known_of_singleton hc hrows
    rw [hknown] at h
    cases h

/-! ## What a release and a flag change -/

/-- A database with more crates selects the same of the rows that were there. -/
theorem selects_frame (hc : Consistent db) (hsub : db.named <+: db'.named)
    (hrow : row ∈ db.crateVersions.rows) :
    db'.selects name text row = db.selects name text row := by
  rw [Bool.eq_iff_iff, selects_iff, selects_iff]
  refine and_congr_right fun _ => ⟨fun h => ?_, fun h => hsub.subset h⟩
  obtain ⟨n, hn⟩ := hc.versions row hrow
  obtain ⟨rfl, -⟩ := eq_of_named_id h (hsub.subset hn)
  exact hn

theorem known_released {p : Publish} {ck : Checksum} {crate versionId : ℕ}
    (h : Released db p ck crate versionId db') (hc : Consistent db)
    (hnew : known db p.name p.vers = none) :
    known db' n v = if n = p.name ∧ v = p.vers then some ⟨false, ck⟩ else known db n v := by
  have hold : db.crateVersions.rows.filter (db'.selects n v.display) = db.versionRows n v.display :=
    List.filter_congr fun row hrow => selects_frame hc h.named hrow
  have hsel : db'.selects n v.display
      (versionId, ⟨crate, p.vers.display, hexEncode ck, false, p.links⟩) = true ↔
        n = p.name ∧ v = p.vers := by
    rw [selects_iff]
    constructor
    · rintro ⟨htext, hnamed⟩
      exact ⟨(eq_of_named_id hnamed h.crate_named).1, (Version.display_injective htext).symm⟩
    · rintro ⟨rfl, rfl⟩
      exact ⟨rfl, h.crate_named⟩
  unfold known
  conv_lhs => unfold Db.versionRows
  rw [h.versions, List.filter_append, hold]
  by_cases hv : n = p.name ∧ v = p.vers
  · rw [if_pos hv, List.filter_cons_of_pos (hsel.mpr hv), List.filter_nil, hv.1, hv.2,
      (known_eq_none hc).mp hnew]
    simp
  · rw [if_neg hv, List.filter_cons_of_neg fun hs => hv (hsel.mp hs), List.filter_nil,
      List.append_nil]

theorem versionRows_setYank (db : Db) (name text n t : String) (flag : Bool) :
    (db.setYank name text flag).versionRows n t =
      (db.versionRows n t).map fun r => (r.1, db.flag name text flag r) := by
  have hsel : ∀ r : ℕ × VersionRow,
      (db.setYank name text flag).selects n t (r.1, db.flag name text flag r) =
        db.selects n t r := by
    intro r
    obtain ⟨f, hf⟩ := flag_eq db name text flag r
    rw [hf]
    rfl
  unfold Db.versionRows
  change ((db.crateVersions.rows.map fun r => (r.1, db.flag name text flag r)).filter _) = _
  rw [List.filter_map]
  congr 1
  exact List.filter_congr fun r _ => hsel r

theorem known_setYank {flag : Bool} :
    known (db.setYank name version.display flag) n v =
      if n = name ∧ v = version then (known db n v).map fun e => { e with yanked := flag }
      else known db n v := by
  unfold known
  rw [versionRows_setYank]
  cases hrows : db.versionRows n v.display with
  | nil => simp
  | cons row rest =>
    have hrow : row ∈ db.versionRows n v.display := by
      rw [hrows]
      exact List.mem_cons_self
    obtain ⟨htext, hnamed⟩ := selects_iff.mp (List.mem_filter.mp hrow).2
    have hsel : db.selects name version.display row = true ↔ n = name ∧ v = version := by
      rw [selects_iff, htext]
      constructor
      · rintro ⟨hv, hname⟩
        exact ⟨(eq_of_named_id hnamed hname).1, Version.display_injective hv⟩
      · rintro ⟨rfl, rfl⟩
        exact ⟨rfl, hnamed⟩
    by_cases hv : n = name ∧ v = version
    · rw [if_pos hv]
      simp only [List.map_cons, List.head?_cons, Option.bind_some, Db.flag, if_pos (hsel.mpr hv),
        Option.map_map]
      rfl
    · rw [if_neg hv]
      simp only [List.map_cons, List.head?_cons, Option.bind_some, Db.flag,
        if_neg fun hs => hv (hsel.mp hs)]

end Rows

/-! ## The transaction when nothing fails -/

section Undisturbed

variable {db : Db} {p : Publish} {ck : Checksum} {l : Label} {crate versionId : ℕ}

theorem statement_undisturbed {α : Type} (stmt : Stmt) (f : Db → α × Db) (db : Db) :
    statement {} stmt f db = (.ok (f db).1, (f db).2) := rfl

theorem refreshCrate_ok (c : ℕ × CrateRow) (p : Publish) (db : Db) :
    ∃ db', refreshCrate {} c p db = (.ok (), db') := by
  unfold refreshCrate
  split_ifs
  · exact ⟨_, statement_undisturbed _ _ _⟩
  · exact ⟨db, rfl⟩

theorem addLabels_ok (l : Label) (crate : ℕ) (wanted had : List String) (db : Db) :
    ∃ db', addLabels {} l crate wanted had db = (.ok (), db') :=
  Tx.each_ok (I := fun _ _ => True) (fun _ _ _ _ => ⟨_, rfl, trivial⟩) trivial

theorem pruneLabels_ok (l : Label) (crate : ℕ) (wanted had : List String) (db : Db) :
    ∃ db', pruneLabels {} l crate wanted had db = (.ok (), db') :=
  Tx.each_ok (I := fun _ _ => True) (fun _ _ _ _ => ⟨_, rfl, trivial⟩) trivial

theorem getCrateLabels_ok (l : Label) (crate : ℕ) (db : Db) :
    ∃ names, statement {} (.getCrateLabels l) (getCrateLabels l crate) db = (.ok names, db) :=
  ⟨_, rfl⟩

theorem refreshLabels_ok (crate : ℕ) (p : Publish) (db : Db) :
    ∃ db', refreshLabels {} crate p db = (.ok (), db') := by
  obtain ⟨keywords, hk⟩ := getCrateLabels_ok .keyword crate db
  obtain ⟨categories, hc⟩ := getCrateLabels_ok .category crate db
  obtain ⟨db₁, h₁⟩ := addLabels_ok .keyword crate p.keywords keywords db
  obtain ⟨db₂, h₂⟩ := addLabels_ok .category crate p.categories categories db₁
  obtain ⟨db₃, h₃⟩ := pruneLabels_ok .keyword crate p.keywords keywords db₂
  obtain ⟨db₄, h₄⟩ := pruneLabels_ok .category crate p.categories categories db₃
  refine ⟨db₄, ?_⟩
  unfold refreshLabels
  rw [Tx.bind_of_ok hk, Tx.bind_of_ok hc, Tx.bind_of_ok h₁, Tx.bind_of_ok h₂, Tx.bind_of_ok h₃]
  exact h₄

theorem insertDependencies_ok (versionId : ℕ) (deps : List PublishDependency) (db : Db) :
    ∃ db', Tx.each (fun d => statement {} (.insertDependency d) (insertDependency versionId d)) deps
      db = (.ok (), db') :=
  Tx.each_ok (I := fun _ _ => True) (fun _ _ _ _ => ⟨_, rfl, trivial⟩) trivial

/-- The keys of the features that are still to be inserted. -/
def Free (versionId : ℕ) (features : List (String × List String)) (db : Db) : Prop :=
  (features.map Prod.fst).Nodup ∧
    ∀ e ∈ features, (versionId, e.1) ∉ db.features.rows.map fun r => (r.2.crateVersion, r.2.name)

theorem insertFeatures_ok {features : List (String × List String)}
    (h : Free versionId features db) :
    ∃ db', Tx.each (insertFeature {} versionId) features db = (.ok (), db') := by
  refine Tx.each_ok (I := Free versionId) (fun e rest db h => ?_) h
  obtain ⟨hnodup, hfree⟩ := h
  rw [List.map_cons, List.nodup_cons] at hnodup
  have hkey := hfree e List.mem_cons_self
  have hins : db.features.insert ⟨versionId, e.1, e.2⟩ = (some db.features.next,
      db.features.add ⟨versionId, e.1, e.2⟩ hkey) := Table.insert_of_notMem hkey
  have hrun : insertFeature {} versionId e db =
      (.ok (), { db with features := db.features.add ⟨versionId, e.1, e.2⟩ hkey }) := by
    unfold insertFeature
    simp only [hins]
    rfl
  refine ⟨_, hrun, hnodup.2, fun e' he' => ?_⟩
  rw [Table.rows_add, List.map_append, List.mem_append]
  rintro (hm | hm)
  · exact hfree e' (List.mem_cons_of_mem _ he') hm
  · have hname : e'.1 = e.1 := by simpa using hm
    apply hnodup.1
    rw [← hname]
    exact List.mem_map_of_mem he'

/-- The transaction up to the insertion of the version. -/
theorem insertRelease_prepared (p : Publish) (ck : Checksum) (db : Db) :
    ∃ crate db', Prepared db db' ∧ (crate, p.name, "") ∈ db'.named ∧
      insertRelease {} p ck db = (do
        let versionId ← insertVersion {} crate p ck
        Tx.each (fun d => statement {} (.insertDependency d) (insertDependency versionId d)) p.deps
        Tx.each (insertFeature {} versionId) p.features.iter : Step Unit) db' := by
  cases h₁ : getOrInsertCrate p.name db with
  | mk c db₁ =>
    obtain ⟨hp₁, hcrate⟩ := prepared_getOrInsertCrate h₁
    obtain ⟨db₂, h₂⟩ := refreshCrate_ok c p db₁
    obtain ⟨db₃, h₃⟩ := refreshLabels_ok c.1 p db₂
    have hp₂ := prepared_refreshCrate h₂
    have hids := ids_subset hp₂.named (mem_ids.mpr ⟨_, _, hcrate⟩)
    have hp₃ := prepared_refreshLabels h₃ hids
    have hstart : statement {} (.getOrInsertCrate p.name) (getOrInsertCrate p.name) db =
        (.ok c, db₁) := by
      rw [statement_undisturbed, h₁]
    refine ⟨c.1, db₃, (hp₁.trans hp₂).trans hp₃, ?_, ?_⟩
    · exact (hp₂.named.trans hp₃.named).subset hcrate
    · unfold insertRelease
      rw [Tx.bind_of_ok hstart, Tx.bind_of_ok h₂, Tx.bind_of_ok h₃]

/-- The version is there iff its key is taken. -/
theorem key_mem_iff {db' : Db} (hp : Prepared db db') (hcrate : (crate, p.name, "") ∈ db'.named)
    (hc : Consistent db) :
    (crate, p.vers.display) ∈ db'.crateVersions.rows.map (fun r => (r.2.crate, r.2.version)) ↔
      db.versionRows p.name p.vers.display ≠ [] := by
  rw [hp.versions]
  constructor
  · intro hm hnil
    obtain ⟨row, hrow, hkey⟩ := List.mem_map.mp hm
    have hrowcrate : row.2.crate = crate := (Prod.ext_iff.mp hkey).1
    have htext : row.2.version = p.vers.display := (Prod.ext_iff.mp hkey).2
    rw [← hrowcrate] at hcrate
    have hsel : db.selects p.name p.vers.display row = true := by
      rw [← selects_frame hc hp.named hrow, selects_iff]
      exact ⟨htext, hcrate⟩
    have hmem : row ∈ db.versionRows p.name p.vers.display := List.mem_filter.mpr ⟨hrow, hsel⟩
    rw [hnil] at hmem
    cases hmem
  · intro hne
    obtain ⟨row, hmem⟩ := List.exists_mem_of_ne_nil _ hne
    obtain ⟨hrow, hsel⟩ := List.mem_filter.mp hmem
    obtain ⟨htext, hnamed⟩ := selects_iff.mp hsel
    refine List.mem_map.mpr ⟨row, hrow, Prod.ext ?_ htext⟩
    exact eq_of_named_name (hp.named.subset hnamed) hcrate

variable (ck) in
/-- **A version that is there stops the transaction.** -/
theorem insertRelease_known (hc : Consistent db)
    (h : db.versionRows p.name p.vers.display ≠ []) :
    ∃ new, insertRelease {} p ck db = (.error (.conflict "Failed to insert version"), new) := by
  obtain ⟨crate, db', hp, hcrate, hrun⟩ := insertRelease_prepared p ck db
  have hkey := (key_mem_iff hp hcrate hc).mpr h
  have hins : insertVersion {} crate p ck db' = (.error (.conflict "Failed to insert version"),
      { db' with crateVersions := db'.crateVersions.skip }) := by
    have hskip : db'.crateVersions.insert ⟨crate, p.vers.display, hexEncode ck, false, p.links⟩ =
        (none, db'.crateVersions.skip) := Table.insert_of_mem hkey
    unfold insertVersion
    simp only [hskip]
    rfl
  rw [hrun, Tx.bind_of_error hins]
  exact ⟨_, rfl⟩

variable (ck) in
/-- **A new version goes through.** -/
theorem insertRelease_new (hc : Consistent db) (h : db.versionRows p.name p.vers.display = []) :
    ∃ new, insertRelease {} p ck db = (.ok (), new) := by
  obtain ⟨crate, db₁, hp, hcrate, hrun⟩ := insertRelease_prepared p ck db
  have hkey := mt (key_mem_iff hp hcrate hc).mp (not_not_intro h)
  obtain ⟨t, hadd⟩ : ∃ t, db₁.crateVersions.insert
      ⟨crate, p.vers.display, hexEncode ck, false, p.links⟩ = (some db₁.crateVersions.next, t) :=
    ⟨_, Table.insert_of_notMem hkey⟩
  have hins : insertVersion {} crate p ck db₁ =
      (.ok db₁.crateVersions.next, { db₁ with crateVersions := t }) := by
    unfold insertVersion
    simp only [hadd]
    rfl
  rw [hrun, Tx.bind_of_ok hins]
  obtain ⟨db₂, hdeps⟩ := insertDependencies_ok db₁.crateVersions.next p.deps
    { db₁ with crateVersions := t }
  obtain ⟨-, -, -, hfeatures, -⟩ := insertDependencies_spec hdeps
  have hfree : Free db₁.crateVersions.next p.features.iter db₂ := by
    refine ⟨HashMap.nodup_iter p.features, fun e _ hm => ?_⟩
    rw [hfeatures] at hm
    change _ ∈ db₁.features.rows.map _ at hm
    rw [hp.features] at hm
    obtain ⟨f, hf, hfkey⟩ := List.mem_map.mp hm
    have hversion : f.2.crateVersion = db₁.crateVersions.next := (Prod.ext_iff.mp hfkey).1
    have hid := hc.features f hf
    rw [hversion, hp.versions] at hid
    exact db.crateVersions.next_notMem hid
  obtain ⟨db₃, h₃⟩ := insertFeatures_ok hfree
  rw [Tx.bind_of_ok hdeps]
  exact ⟨db₃, h₃⟩

end Undisturbed

/-! ## Calls -/

section Calls

variable {db : Db} {c : Catalog}

/-- A call answers as the catalog does, and leaves a database that shows the next one. -/
def Follows (out : Option Outcome × Db) (next : Outcome × Catalog) : Prop :=
  out.1 = some next.1 ∧ Shows out.2 next.2

theorem step_publish {p : Publish} {ck : Checksum} (h : Shows db c) :
    Follows (step db (.undisturbed (.publish p ck))) (c.step refusals (.publish p ck)) := by
  by_cases hnew : c p.name p.vers = none
  · have hknown := (h.known p.name p.vers).trans hnew
    obtain ⟨new, hrun⟩ := insertRelease_new ck h.consistent
      ((known_eq_none h.consistent).mp hknown)
    obtain ⟨crate, versionId, hr⟩ := released_of_insertRelease hrun
    have hout : step db (.undisturbed (.publish p ck)) = (some (.ok .done), new) := by
      simp [step, Call.undisturbed, publish, hrun, Except.map]
    rw [hout, Catalog.step_publish_new refusals ck hnew]
    refine ⟨rfl, hr.consistent h.consistent, fun n v => ?_⟩
    rw [known_released hr h.consistent hknown, h.known n v]
    rfl
  · have hrows : db.versionRows p.name p.vers.display ≠ [] := by
      intro hnil
      apply hnew
      rw [← h.known, known_of_nil hnil]
    obtain ⟨new, hrun⟩ := insertRelease_known ck h.consistent hrows
    have hout : step db (.undisturbed (.publish p ck)) =
        (some (.error (.conflict "Failed to insert version")), db.rollback new) := by
      simp [step, Call.undisturbed, publish, hrun, Except.map]
    rw [hout, Catalog.step_publish_known refusals ck hnew]
    exact ⟨rfl, (Move.undone new).consistent h.consistent, h.known⟩

theorem step_yank {name : String} {version : Version} {flag : Bool} (h : Shows db c) :
    Follows (step db (.undisturbed (.yank name version flag)))
      (c.step refusals (.yank name version flag)) := by
  have hset : ∀ n v, known (db.setYank name version.display flag) n v =
      if n = name ∧ v = version then (c n v).map fun e => { e with yanked := flag } else c n v := by
    intro n v
    rw [known_setYank, h.known]
  have hconsistent := consistent_setYank name version.display flag h.consistent
  rcases versionRows_cases db name version.display with hrows | ⟨row, hrows⟩
  · have hnone : c name version = none := (h.known name version).symm.trans (known_of_nil hrows)
    have hout : step db (.undisturbed (.yank name version flag)) =
        (some (.error refusals.missing), db.setYank name version.display flag) := by
      simp [step, Call.undisturbed, yankInner, hrows, Except.map, refusals]
    rw [hout, Catalog.step_yank_missing refusals flag hnone]
    refine ⟨rfl, hconsistent, fun n v => ?_⟩
    change _ = c n v
    rw [hset]
    split_ifs with hv
    · rw [hv.1, hv.2, hnone]
      rfl
    · rfl
  · obtain ⟨ck, -, hknown⟩ := known_of_singleton h.consistent hrows
    rw [h.known] at hknown
    have hout : step db (.undisturbed (.yank name version flag)) =
        (some (.ok .done), db.setYank name version.display flag) := by
      simp [step, Call.undisturbed, yankInner, hrows, Except.map]
    rw [hout, Catalog.step_yank_found refusals flag hknown]
    refine ⟨rfl, hconsistent, fun n v => ?_⟩
    change _ = c.set name version _ n v
    rw [hset]
    unfold Catalog.set
    split_ifs with hv
    · rw [hv.1, hv.2, hknown]
      rfl
    · rfl

theorem step_confirm {name : String} {version : Version} (h : Shows db c) :
    Follows (step db (.undisturbed (.confirm name version)))
      (c.step refusals (.confirm name version)) := by
  refine ⟨?_, h⟩
  simp only [step, Call.undisturbed, confirmExistence, Catalog.step, Catalog.answer]
  rcases versionRows_cases db name version.display with hrows | ⟨row, hrows⟩
  · rw [← h.known, known_of_nil hrows, hrows]
    rfl
  · obtain ⟨ck, hck, hknown⟩ := known_of_singleton h.consistent hrows
    rw [← h.known, hknown, hrows]
    simp only [hck]
    rfl

/-- **The Postgres index is the catalog.** -/
theorem step_shows (h : Shows db c) (op : IndexOp) :
    Follows (step db (.undisturbed op)) (c.step refusals op) := by
  cases op with
  | publish p ck => exact step_publish h
  | yank name version flag => exact step_yank h
  | confirm name version => exact step_confirm h

theorem shows_empty : Shows Db.empty Catalog.empty :=
  ⟨consistent_empty, fun _ _ => rfl⟩

end Calls

end PgIndex

end Freighter
