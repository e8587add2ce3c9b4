import Freighter.FsIndex.Catalog
import Freighter.Pg.Crates

/-!
# Which crates an index has

The sparse entry of a crate after a run of publish calls, some of which fail.

* `Exact`: the crate is not found iff no version of it was committed, and otherwise has one entry
  for each;
* `pg_has`, `fs_has`: what each provider's state says about the calls that were committed;
* **`sparse_entries_exact_iff`**: the filesystem index is exact; Postgres is, but for crates of this
  registry that are dependencies only.
-/

namespace Freighter

/-- A publish call, with what fails during it in either provider and what its `end_step` answers. -/
structure PublishCall where
  fs : FsIndex.Io := {}
  pg : PgIndex.Io := {}
  endStep : Except IndexError Unit := .ok ()
  publish : Publish
  tarballChecksum : Checksum

def fsPublish (L : Libs) (files : FsIndex.Files) (c : PublishCall) :
    Except IndexError CompletedPublication × FsIndex.Files :=
  let out := FsIndex.publish L c.fs files c.publish c.tarballChecksum
    (fun _ (w : Unit) => (c.endStep, w)) ()
  (out.1, out.2.1)

def pgPublish (db : PgIndex.Db) (c : PublishCall) :
    Except IndexError CompletedPublication × PgIndex.Db :=
  let out := PgIndex.publish c.pg db c.publish c.tarballChecksum
    (fun (w : Unit) => (c.endStep, w)) ()
  (out.1, out.2.1)

/-- The call is committed. -/
def Committed (r : Except IndexError CompletedPublication) : Prop := r = .ok .noWarnings

instance : DecidablePred Committed := fun r =>
  match r with
  | .ok .noWarnings => isTrue rfl
  | .error _ => isFalse fun h => by cases h

/-- The calls that are committed, from no files. -/
def fsCommitted (L : Libs) (calls : List PublishCall) : List PublishCall :=
  Run.accepted (fsPublish L) Committed (fun _ => none) calls

/-- The calls that are committed, from an empty database. -/
def pgCommitted (calls : List PublishCall) : List PublishCall :=
  Run.accepted pgPublish Committed PgIndex.Db.empty calls

/-- The versions of the calls on a crate; `key` says which names are one crate's. -/
def versionsOf (key : String → String) (name : String) (calls : List PublishCall) : List Version :=
  (calls.filter fun c => key c.publish.name = key name).map fun c => c.publish.vers

theorem versionsOf_concat (key : String → String) (name : String) (calls : List PublishCall)
    (c : PublishCall) : versionsOf key name (calls ++ [c]) = versionsOf key name calls ++
      if key c.publish.name = key name then [c.publish.vers] else [] := by
  unfold versionsOf
  rw [List.filter_append, List.map_append]
  congr 1
  by_cases h : key c.publish.name = key name
  · rw [List.filter_cons_of_pos (by simpa using h), if_pos h]
    rfl
  · rw [List.filter_cons_of_neg (by simpa using h), if_neg h]
    rfl

/-- **What an index should answer about a crate** of which these versions were committed. -/
structure Exact (answer : Option (Except IndexError (List CrateVersion)))
    (versions : List Version) : Prop where
  answers : answer = some (.error .notFound) ∨ ∃ entries, answer = some (.ok entries)
  notFound : answer = some (.error .notFound) ↔ versions = []
  entries : ∀ entries, answer = some (.ok entries) → entries ≠ [] ∧
    (entries.map CrateVersion.vers).Nodup ∧
      ∀ version, version ∈ entries.map CrateVersion.vers ↔ version ∈ versions

theorem exact_of_entries {entries : List CrateVersion} {versions : List Version}
    (hvers : entries.map CrateVersion.vers = versions) (hnodup : versions.Nodup)
    (hne : versions ≠ []) : Exact (some (.ok entries)) versions := by
  subst hvers
  refine ⟨Or.inr ⟨entries, rfl⟩, ⟨fun h => (by cases h), fun h => absurd h hne⟩, ?_⟩
  intro entries' h
  cases h
  refine ⟨?_, hnodup, fun _ => Iff.rfl⟩
  rintro rfl
  exact hne rfl

theorem exact_notFound : Exact (some (.error .notFound)) [] :=
  ⟨Or.inl rfl, ⟨fun _ => rfl, fun _ => rfl⟩, fun _ h => by cases h⟩

/-! ## The Postgres index -/

section Pg

variable (S : Semver) {db : PgIndex.Db} {calls : List PublishCall} {c : PublishCall}

/-- What the database says about the calls that were committed. -/
structure PgHas (db : PgIndex.Db) (calls : List PublishCall) : Prop where
  consistent : PgIndex.Consistent db
  crates : ∀ name registry, (∃ id, (id, name, registry) ∈ db.named) ↔
    ∃ c ∈ calls, (name, registry) ∈ PgIndex.crateKeys c.publish
  served : ∀ name, (PgIndex.served S db name).map CrateVersion.vers = versionsOf id name calls
  nodup : ∀ name, (versionsOf id name calls).Nodup

theorem pgHas_empty : PgHas S PgIndex.Db.empty [] where
  consistent := PgIndex.consistent_empty
  crates name registry := by simp [PgIndex.Db.named, PgIndex.Db.empty]
  served name := rfl
  nodup name := List.nodup_nil

variable {S}

theorem PgHas.commit (h : PgHas S db calls) (hc : Committed (pgPublish db c).1) :
    PgHas S (pgPublish db c).2 (calls ++ [c]) := by
  obtain ⟨crate, versionId, hr⟩ := PgIndex.released_of_publish hc
  have hserved : PgIndex.served S (pgPublish db c).2 c.publish.name =
      PgIndex.served S db c.publish.name ++ [PgIndex.stored c.publish c.tarballChecksum] := by
    have hentries : PgIndex.getSparseEntry S {} (pgPublish db c).2 c.publish.name = _ :=
      PgIndex.getSparseEntry_released hr h.consistent
    conv_lhs => unfold PgIndex.served
    rw [hentries]
  refine ⟨hr.consistent h.consistent, fun name registry => ?_, fun name => ?_, fun name => ?_⟩
  · have hnamed := PgIndex.named_publish hc name registry
    rw [h.crates] at hnamed
    refine hnamed.trans ?_
    simp [or_and_right, exists_or]
  · rw [versionsOf_concat]
    simp only [id]
    by_cases hname : c.publish.name = name
    · subst hname
      rw [if_pos rfl, hserved, List.map_append, h.served]
      rfl
    · have hother : PgIndex.served S (pgPublish db c).2 name = _ :=
        PgIndex.served_other hr h.consistent (Ne.symm hname)
      rw [if_neg hname, List.append_nil, hother, h.served]
  · rw [versionsOf_concat]
    simp only [id]
    by_cases hname : c.publish.name = name
    · subst hname
      rw [if_pos rfl]
      refine (h.nodup _).append (List.nodup_singleton _) (List.disjoint_singleton.mpr ?_)
      rw [← h.served]
      intro hm
      obtain ⟨e, he, hvers⟩ := List.mem_map.mp hm
      exact PgIndex.vers_ne_of_served hr h.consistent he hvers
    · rw [if_neg hname, List.append_nil]
      exact h.nodup name

theorem PgHas.rollback (h : PgHas S db calls) (hc : ¬ Committed (pgPublish db c).1) :
    PgHas S (pgPublish db c).2 calls := by
  rcases PgIndex.publish_cases c.pg db c.publish c.tarballChecksum
    (fun (w : Unit) => (c.endStep, w)) () with ⟨hok, -⟩ | ⟨-, hdb | ⟨new, hdb⟩⟩
  · exact absurd hok hc
  · change PgHas S (PgIndex.publish _ _ _ _ _ _).2.1 calls
    rw [hdb]
    exact h
  · change PgHas S (PgIndex.publish _ _ _ _ _ _).2.1 calls
    rw [hdb]
    exact ⟨(PgIndex.Move.undone new).consistent h.consistent, h.crates, h.served, h.nodup⟩

variable (S) in
/-- **What the database says after a run.** -/
theorem pg_has (calls : List PublishCall) :
    PgHas S (Run.final pgPublish PgIndex.Db.empty calls) (pgCommitted calls) :=
  Run.final_accepted (I := PgHas S) (fun _ _ _ h hc => h.commit hc)
    (fun _ _ _ h hc => h.rollback hc) (pgHas_empty S) calls

/-- The crate of this registry is a dependency of a committed release. -/
def DependedOn (name : String) (calls : List PublishCall) : Prop :=
  ∃ c ∈ calls, ∃ d ∈ c.publish.deps, d.name = name ∧ d.registry.getD "" = ""

theorem PgHas.named_iff (h : PgHas S db calls) (name : String) :
    (∃ id, (id, name, "") ∈ db.named) ↔ versionsOf id name calls ≠ [] ∨ DependedOn name calls := by
  rw [h.crates]
  have hpublished : versionsOf id name calls ≠ [] ↔ ∃ c ∈ calls, c.publish.name = name := by
    unfold versionsOf
    rw [ne_eq, List.map_eq_nil_iff, List.filter_eq_nil_iff]
    simp
  rw [hpublished]
  constructor
  · rintro ⟨c, hc, hkey⟩
    rcases List.mem_cons.mp hkey with hkey | hkey
    · cases hkey
      exact Or.inl ⟨c, hc, rfl⟩
    · obtain ⟨d, hd, heq⟩ := List.mem_map.mp hkey
      exact Or.inr ⟨c, hc, d, hd, Prod.ext_iff.mp heq⟩
  · rintro (⟨c, hc, rfl⟩ | ⟨c, hc, d, hd, rfl, hregistry⟩)
    · exact ⟨c, hc, List.mem_cons_self⟩
    · refine ⟨c, hc, List.mem_cons_of_mem _ (List.mem_map.mpr ⟨d, hd, ?_⟩)⟩
      rw [hregistry]

/-- **When Postgres is exact about a crate.** -/
theorem PgHas.exact_iff (h : PgHas S db calls) (name : String) :
    Exact (PgIndex.getSparseEntry S {} db name) (versionsOf id name calls) ↔
      (versionsOf id name calls ≠ [] ∨ ¬ DependedOn name calls) := by
  by_cases hnamed : ∃ id, (id, name, "") ∈ db.named
  · obtain ⟨id', hid⟩ := hnamed
    have hanswer : PgIndex.getSparseEntry S {} db name =
        some (.ok (PgIndex.served S db name)) := by
      rw [PgIndex.getSparseEntry_of_named hid,
        PgIndex.served_eq h.consistent (List.prefix_refl _) hid]
    have hor := (h.named_iff name).mp ⟨id', hid⟩
    rw [hanswer]
    constructor
    · intro hexact
      refine Or.inl fun hnil => ?_
      have hnot := hexact.notFound.mpr hnil
      cases hnot
    · intro hcond
      have hne : versionsOf id name calls ≠ [] := by
        rcases hcond with hne | hdep
        · exact hne
        · exact hor.resolve_right hdep
      exact exact_of_entries (h.served name) (h.nodup name) hne
  · have hnone : ∀ id, (id, name, "") ∉ db.named := fun id hid => hnamed ⟨id, hid⟩
    have hboth := mt (h.named_iff name).mpr hnamed
    rw [not_or, not_ne_iff] at hboth
    rw [PgIndex.getSparseEntry_of_not_named hnone, hboth.1]
    exact ⟨fun _ => Or.inr hboth.2, fun _ => exact_notFound⟩

end Pg

/-! ## The filesystem index -/

section Fs

open FsIndex (contentsOf accessCrate CrateMetaPath)

variable {L : Libs} {files : FsIndex.Files} {calls : List PublishCall} {c : PublishCall}

/-- The file is absent, or has one entry for each version. -/
structure FileHas (L : Libs) (files : FsIndex.Files) (path : String) (versions : List Version) :
    Prop where
  nodup : versions.Nodup
  file : files path = none ∧ versions = [] ∨
    ∃ entries q, contentsOf L files path = some (entries, q) ∧
      entries.map CrateVersion.vers = versions ∧ versions ≠ []

/-- What the files say about the calls that were committed. -/
def FsHas (L : Libs) (files : FsIndex.Files) (calls : List PublishCall) : Prop :=
  ∀ name m, accessCrate name = .ok m →
    FileHas L files m.relPath (versionsOf toAsciiLowercase name calls)

theorem fsHas_empty : FsHas L (fun _ => none) [] :=
  fun _ _ _ => ⟨List.nodup_nil, Or.inl ⟨rfl, rfl⟩⟩

/-- The entry of a new version is added to a file. -/
theorem FileHas.add {after : FsIndex.Files} {path : String} {versions : List Version}
    (h : FileHas L files path versions) {entries : List CrateVersion} {e : CrateVersion}
    {q : Option Publish} (hentries : FsIndex.HasEntries L files path entries)
    (hlacks : ∀ v ∈ entries, v.vers ≠ e.vers)
    (hafter : contentsOf L after path = some (entries ++ [e], q)) :
    FileHas L after path (versions ++ [e.vers]) := by
  have hvers : entries.map CrateVersion.vers = versions := by
    rcases h.file with ⟨hnone, rfl⟩ | ⟨entries', q', hc, hvers, -⟩
    · rw [FsIndex.entries_of_absent hentries hnone]
      rfl
    · rw [FsIndex.hasEntries_unique hentries (Or.inr ⟨q', hc⟩)]
      exact hvers
  refine ⟨h.nodup.append (List.nodup_singleton _) (List.disjoint_singleton.mpr ?_),
    Or.inr ⟨entries ++ [e], q, hafter, ?_, by simp⟩⟩
  · rw [← hvers]
    intro hm
    obtain ⟨v, hv, heq⟩ := List.mem_map.mp hm
    exact hlacks v hv heq
  · rw [List.map_append, hvers]
    rfl

theorem FileHas.congr {after : FsIndex.Files} {path : String} {versions : List Version}
    (h : FileHas L files path versions) (hfile : after path = files path) :
    FileHas L after path versions := by
  refine ⟨h.nodup, ?_⟩
  rw [hfile, FsIndex.contentsOf_congr hfile]
  exact h.file

theorem FsHas.commit (h : FsHas L files calls) (hc : Committed (fsPublish L files c).1) :
    FsHas L (fsPublish L files c).2 (calls ++ [c]) := by
  unfold fsPublish Committed at hc
  unfold fsPublish
  simp only at hc ⊢
  have hacc : FsIndex.Accepts L c.fs files c.publish :=
    (FsIndex.publish_ok_iff.mp ⟨.noWarnings, hc⟩).1
  obtain ⟨m', hm', -⟩ := hacc
  rcases FsIndex.publish_effect L c.fs files c.publish c.tarballChecksum
    (fun _ (w : Unit) => (c.endStep, w)) () with ⟨⟨e, he⟩, -⟩ | ⟨hframe, heffect⟩
  · rw [hc] at he
    cases he
  obtain ⟨entries, hentries, hlacks, hafter⟩ := heffect
  have hpath' : (FsIndex.IndexOp.publish c.publish c.tarballChecksum).relPath = m'.relPath :=
    (FsIndex.accessCrate_relPath hm').symm
  rw [hpath'] at hframe hentries hafter
  intro name m hm
  rw [versionsOf_concat]
  by_cases hname : toAsciiLowercase c.publish.name = toAsciiLowercase name
  · have hpath : m.relPath = m'.relPath := by
      rw [FsIndex.accessCrate_relPath hm, FsIndex.accessCrate_relPath hm', hname]
    have hbefore := h name m hm
    rw [hpath] at hbefore ⊢
    rw [if_pos hname]
    exact hbefore.add (e := FsIndex.release c.publish c.tarballChecksum) hentries hlacks hafter
  · rw [if_neg hname, List.append_nil]
    refine (h name m hm).congr (hframe _ fun heq => hname ?_)
    have hmm := FsIndex.relPath_inj hm hm' heq
    rw [← (FsIndex.accessCrate_eq_ok.mp hm).1, ← (FsIndex.accessCrate_eq_ok.mp hm').1, hmm]

theorem FsHas.fail (h : FsHas L files calls) (hc : ¬ Committed (fsPublish L files c).1) :
    FsHas L (fsPublish L files c).2 calls := by
  unfold fsPublish Committed at hc
  unfold fsPublish
  simp only at hc ⊢
  cases hr : (FsIndex.publish L c.fs files c.publish c.tarballChecksum
      (fun _ (w : Unit) => (c.endStep, w)) ()).1 with
  | ok r =>
    cases r
    exact absurd hr hc
  | error e =>
    rw [FsIndex.publish_error hr]
    exact h

variable (L) in
/-- **What the files say after a run.** -/
theorem fs_has (calls : List PublishCall) :
    FsHas L (Run.final (fsPublish L) (fun _ => none) calls) (fsCommitted L calls) :=
  Run.final_accepted (I := FsHas L) (fun _ _ _ h hc => h.commit hc) (fun _ _ _ h hc => h.fail hc)
    fsHas_empty calls

/-- **The filesystem index is exact.** -/
theorem FsHas.exact (h : FsHas L files calls) {name : String} {m : CrateMetaPath}
    (hm : accessCrate name = .ok m) :
    Exact (some (FsIndex.getSparseEntry L {} files name))
      (versionsOf toAsciiLowercase name calls) := by
  obtain ⟨hnodup, hfile⟩ := h name m hm
  unfold FsIndex.getSparseEntry
  rw [hm]
  simp only
  rcases hfile with ⟨hnone, hnil⟩ | ⟨entries, q, hc, hvers, hne⟩
  · have hread : FsIndex.pullFile false files m.relPath = .error .notFound := by
      simp [FsIndex.pullFile, hnone]
    rw [hread, hnil]
    exact exact_notFound
  · have hread : FsIndex.deserialized L (FsIndex.pullFile false files m.relPath) =
        .ok (entries, q) := FsIndex.deserialized_ok.mpr hc
    rw [hread]
    exact exact_of_entries hvers hnodup hne

end Fs

/-! ## Both -/

/-- **Postgres takes a dependency for a crate that exists.** After every run of publish calls, some
of which fail, the Postgres index is exact about a crate iff a version of it was committed or no
committed release depends on a crate of this registry with its name. The filesystem index is exact
about every crate whose name it allows. -/
theorem sparse_entries_exact_iff (S : Semver) (L : Libs) (calls : List PublishCall)
    (name : String) :
    (Exact (PgIndex.getSparseEntry S {} (Run.final pgPublish PgIndex.Db.empty calls) name)
        (versionsOf id name (pgCommitted calls)) ↔
      (versionsOf id name (pgCommitted calls) ≠ [] ∨ ¬ DependedOn name (pgCommitted calls))) ∧
    ((∃ m, FsIndex.accessCrate name = .ok m) →
      Exact (some (FsIndex.getSparseEntry L {} (Run.final (fsPublish L) (fun _ => none) calls) name))
        (versionsOf toAsciiLowercase name (fsCommitted L calls))) := by
  refine ⟨(pg_has S calls).exact_iff name, ?_⟩
  rintro ⟨m, hm⟩
  exact (fs_has L calls).exact hm

/-- `foo`, which depends on `bar`. -/
def fooOnBar : Publish :=
  { foo with
    deps :=
      [{ name := "bar"
         versionReq := VersionReq.caret 1 2 0
         features := []
         optional := false
         defaultFeatures := true
         target := none
         kind := .normal
         registry := none
         explicitNameInToml := none }] }

/-- After a publish of `foo`, its dependency `bar` exists, without versions. -/
theorem dependency_exists :
    let calls : List PublishCall := [{ publish := fooOnBar, tarballChecksum := abcHash [] }]
    versionsOf id "bar" (pgCommitted calls) = [] ∧
      PgIndex.getSparseEntry Semver.canonical {} (Run.final pgPublish PgIndex.Db.empty calls) "bar" =
        some (.ok []) ∧
      ¬ Exact (PgIndex.getSparseEntry Semver.canonical {}
        (Run.final pgPublish PgIndex.Db.empty calls) "bar")
          (versionsOf id "bar" (pgCommitted calls)) := by
  intro calls
  have hcommitted : pgCommitted calls = calls := by
    have hok : Committed (pgPublish PgIndex.Db.empty
        { publish := fooOnBar, tarballChecksum := abcHash [] }).1 := by decide +kernel
    unfold pgCommitted
    rw [Run.accepted, if_pos hok]
    rfl
  have hversions : versionsOf id "bar" (pgCommitted calls) = [] := by
    rw [hcommitted]
    decide
  have hnot : ¬ Exact (PgIndex.getSparseEntry Semver.canonical {}
      (Run.final pgPublish PgIndex.Db.empty calls) "bar")
        (versionsOf id "bar" (pgCommitted calls)) := by
    rw [(pg_has Semver.canonical calls).exact_iff "bar", hversions, hcommitted]
    rintro (hne | hdep)
    · exact hne rfl
    · exact hdep ⟨_, List.mem_singleton_self _, _, List.mem_singleton_self _, rfl, rfl⟩
  exact ⟨hversions, rfl, hnot⟩

end Freighter
