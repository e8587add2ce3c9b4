import Freighter.Server.Ownership
import Freighter.Server.Registry
import Freighter.Server.Search
import Freighter.Server.Tarballs

/-!
# The stores are the registry

Over the filesystem index and the bucket the routes on a crate answer as the registry does.

* `Represents`: the files and the objects are those of the registry, and no others;
* `sim_sparseEntry`, `sim_download`, `sim_publish`, `sim_yank`: what each call on the stores does to
  the registry that they represent; **`sim_stores`**;
* **`registry_refines`**: so a server answers every run of requests as the registry does, whatever
  else than a clean-up fails.
-/

namespace Freighter

namespace Registry

open FsIndex (accessCrate contentsOf deserialized pullFile keyPath CrateMetaPath)
open Server (entryPath)
open Routes (Answer AuthProvider Backend Extractors Failure ServiceConfig)

variable (L : Libs) (sha256 : Bytes → Checksum)

/-! ## What the stores represent -/

/-- The file of a crate with these releases: absent, or with an entry for each. -/
def IsFile (files : FsIndex.Files) (path : String) (releases : List Release) : Prop :=
  releases = [] ∧ files path = none ∨
    releases ≠ [] ∧ ∃ q, contentsOf L files path = some (releases.map Release.entry, q)

/-- The files and the objects of a registry. -/
structure Represents (files : FsIndex.Files) (bucket : S3.Bucket) (reg : Registry) : Prop where
  file : ∀ name m, accessCrate name = .ok m → IsFile L files m.relPath (reg m.key)
  noOther : ∀ path, files path ≠ none →
    ∃ name m, accessCrate name = .ok m ∧ m.relPath = path ∧ reg m.key ≠ []
  object : ∀ path d, bucket path = some d ↔
    ∃ key, ∃ r ∈ reg key, path = entryPath r.entry ∧ d = r.tarball
  release : ∀ key, ∀ r ∈ reg key, (∃ m, accessCrate r.entry.name = .ok m ∧ m.key = key) ∧
    r.entry.cksum = sha256 r.tarball
  unique : ∀ key, ((reg key).map fun r => r.entry.vers).Nodup

variable {L sha256} {files : FsIndex.Files} {bucket : S3.Bucket} {reg : Registry} {name : String}
  {m : CrateMetaPath} {version : Version} {r : Release} {releases : List Release}

theorem represents_empty : Represents L sha256 (fun _ => none) (fun _ => none) empty where
  file _ _ _ := Or.inl ⟨rfl, rfl⟩
  noOther _ h := absurd rfl h
  object path d := by simp [empty]
  release _ _ h := absurd h List.not_mem_nil
  unique _ := List.nodup_nil

/-! ## Releases of a version -/

theorem find_eq_none : find releases version = none ↔ ∀ r ∈ releases, r.entry.vers ≠ version := by
  simp [find, List.find?_eq_none]

theorem mem_of_find (h : find releases version = some r) :
    r ∈ releases ∧ r.entry.vers = version :=
  ⟨List.mem_of_find?_eq_some h, by simpa using List.find?_some h⟩

theorem find_cons_self (h : r.entry.vers = version) :
    find (r :: releases) version = some r :=
  List.find?_cons_of_pos (decide_eq_true h)

theorem find_cons_of_ne (h : r.entry.vers ≠ version) :
    find (r :: releases) version = find releases version :=
  List.find?_cons_of_neg (by simpa using h)

/-- Where versions are unique, a version is in one place only. -/
theorem find_tail_eq_none (h : ((r :: releases).map fun r => r.entry.vers).Nodup)
    (hv : r.entry.vers = version) : find releases version = none := by
  rw [List.map_cons, List.nodup_cons] at h
  exact find_eq_none.mpr fun r' hr' he =>
    h.1 (List.mem_map.mpr ⟨r', hr', he.trans hv.symm⟩)

/-- So the last entry of a version is the first. -/
theorem find?_reverse_entries (h : (releases.map fun r => r.entry.vers).Nodup) :
    (releases.map Release.entry).reverse.find? (·.vers = version) =
      (find releases version).map Release.entry := by
  induction releases with
  | nil => rfl
  | cons r rs ih =>
    rw [List.map_cons, List.reverse_cons, List.find?_append, ih (List.nodup_cons.mp h).2]
    by_cases hv : r.entry.vers = version
    · rw [find_cons_self hv, find_tail_eq_none h hv]
      simp [hv]
    · rw [find_cons_of_ne hv]
      simp [hv]

/-- And setting the flag of the last entry of a version sets that of the release. -/
theorem yankLast_entries (flag : Bool) (h : (releases.map fun r => r.entry.vers).Nodup) :
    FsIndex.yankLast version flag (releases.map Release.entry) =
      (find releases version).map fun _ =>
        (releases.map (setYanked version flag)).map Release.entry := by
  induction releases with
  | nil => rfl
  | cons r rs ih =>
    rw [List.map_cons, FsIndex.yankLast, ih (List.nodup_cons.mp h).2]
    by_cases hv : r.entry.vers = version
    · have hnone : find rs version = none := find_tail_eq_none h hv
      have hrest : rs.map (setYanked version flag) = rs :=
        (List.map_congr_left fun r' hr' => if_neg (find_eq_none.mp hnone r' hr')).trans
          (List.map_id rs)
      have hset : setYanked version flag r = _ := if_pos hv
      rw [hnone, find_cons_self hv, List.map_cons, hrest, hset, if_pos hv]
      rfl
    · have hset : setYanked version flag r = r := if_neg hv
      rw [find_cons_of_ne hv, List.map_cons, hset, if_neg hv]
      cases find rs version <;> rfl

theorem setYanked_entry (flag : Bool) (r : Release) :
    (setYanked version flag r).entry.name = r.entry.name ∧
      (setYanked version flag r).entry.vers = r.entry.vers ∧
      (setYanked version flag r).entry.cksum = r.entry.cksum ∧
      (setYanked version flag r).tarball = r.tarball := by
  unfold setYanked
  split_ifs <;> exact ⟨rfl, rfl, rfl, rfl⟩

/-! ## What is read -/

namespace Represents

theorem deserialized_nil (h : Represents L sha256 files bucket reg) (hm : accessCrate name = .ok m)
    (hnil : reg m.key = []) :
    deserialized L (pullFile false files m.relPath) = .error .notFound := by
  rcases h.file name m hm with ⟨-, hfile⟩ | ⟨hne, -⟩
  · simp only [pullFile, hfile, Bool.false_eq_true, if_false]
    rfl
  · exact absurd hnil hne

theorem deserialized_cons (h : Represents L sha256 files bucket reg) (hm : accessCrate name = .ok m)
    (hne : reg m.key ≠ []) : ∃ q, deserialized L (pullFile false files m.relPath) =
      .ok ((reg m.key).map Release.entry, q) := by
  rcases h.file name m hm with ⟨hnil, -⟩ | ⟨-, q, hq⟩
  · exact absurd hnil hne
  · exact ⟨q, FsIndex.deserialized_ok.mpr hq⟩

/-- Two releases with one path are one. -/
theorem release_of_path (h : Represents L sha256 files bucket reg) (hm : accessCrate name = .ok m)
    {c : Checksum} {key : String} (hr : r ∈ reg key)
    (hpath : S3.newPath name version.display c = entryPath r.entry) :
    key = m.key ∧ r.entry.name = name ∧ r.entry.vers = version ∧ r.entry.cksum = c := by
  obtain ⟨⟨m', hm', hkey⟩, -⟩ := h.release key r hr
  obtain ⟨hname, hvers⟩ := S3.newPath_inj (FsIndex.dot_notMem_of_accessCrate hm)
    (FsIndex.dot_notMem_of_accessCrate hm') hpath
  rw [← hname, hm] at hm'
  cases hm'
  exact ⟨hkey.symm, hname.symm, hvers.symm, (S3.checksum_of_newPath hpath).symm⟩

theorem oldPath (h : Represents L sha256 files bucket reg) (name version : String) :
    bucket (S3.oldPath name version) = none := by
  cases hb : bucket (S3.oldPath name version) with
  | none => rfl
  | some d =>
    obtain ⟨key, r, -, hpath, -⟩ := (h.object _ d).mp hb
    exact absurd hpath (S3.oldPath_ne_newPath _ _ _ _ _)

/-- The bucket has no tarball of a version that is not there. -/
theorem newPath_of_missing (h : Represents L sha256 files bucket reg)
    (hm : accessCrate name = .ok m) (hmissing : find (reg m.key) version = none) (c : Checksum) :
    bucket (S3.newPath name version.display c) = none := by
  cases hb : bucket (S3.newPath name version.display c) with
  | none => rfl
  | some d =>
    obtain ⟨key, r, hr, hpath, -⟩ := (h.object _ d).mp hb
    obtain ⟨rfl, -, hvers, -⟩ := h.release_of_path hm hr hpath
    exact absurd hvers (find_eq_none.mp hmissing r hr)

/-- The tarball of a release is found by the name it was published with. -/
theorem newPath_of_found (h : Represents L sha256 files bucket reg)
    (hm : accessCrate name = .ok m) (hfound : find (reg m.key) version = some r) :
    bucket (S3.newPath name version.display r.entry.cksum) =
      if r.entry.name = name then some r.tarball else none := by
  obtain ⟨hr, hvers⟩ := mem_of_find hfound
  split_ifs with hname
  · refine (h.object _ _).mpr ⟨m.key, r, hr, ?_, rfl⟩
    rw [entryPath, hname, hvers]
  · cases hb : bucket (S3.newPath name version.display r.entry.cksum) with
    | none => rfl
    | some d =>
      obtain ⟨key, r', hr', hpath, -⟩ := (h.object _ d).mp hb
      obtain ⟨rfl, hname', hvers', -⟩ := h.release_of_path hm hr' hpath
      have heq : r = r' :=
        List.inj_on_of_nodup_map (h.unique m.key) hr hr' (hvers.trans hvers'.symm)
      exact absurd (heq ▸ hname') hname

end Represents

/-! ## The calls -/

section Calls

open Routes (fsIndex s3)

variable {ε : Type} {io : Server.Io} {newFails oldFails : Bool}
  {searchFiles : String → ℕ → Tx FsIndex.Files IndexError SearchResults}
  {listFiles : ListQuery → Tx FsIndex.Files IndexError ListAll}

/-- What the failures of the stores are to the registry. -/
def faultsOf (io : Server.Io) (newFails : Bool) : Faults where
  readIndex := io.index.pullFails
  storeTarball := io.putCrateFails
  writeIndex := io.index.putFails
  fetchTarball := newFails

theorem crate_of_error {e : IndexError} (hm : accessCrate name = .error e) (faults : Faults) :
    crate faults reg name = .error e := by
  rw [crate, hm]

theorem crate_of_ok (hm : accessCrate name = .ok m) (faults : Faults) :
    crate faults reg name =
      if faults.readIndex then .error .serviceError else .ok (m.key, reg m.key) := by
  rw [crate, hm]

theorem getSparseEntry_eq (h : Represents L sha256 files bucket reg) (name : String) :
    sparseEntry (faultsOf io newFails) name reg =
      (FsIndex.getSparseEntry L io.index files name, reg) := by
  unfold sparseEntry FsIndex.getSparseEntry
  cases hm : accessCrate name with
  | error e => simp only [crate_of_error hm]
  | ok m =>
    simp only [crate_of_ok hm, faultsOf]
    cases io.index.pullFails with
    | true => rfl
    | false =>
      cases hrs : reg m.key with
      | nil => simp [h.deserialized_nil hm hrs, Except.map]
      | cons r rs =>
        obtain ⟨q, hq⟩ := h.deserialized_cons hm (by rw [hrs]; exact List.cons_ne_nil _ _)
        simp [hq, hrs, Except.map]

/-- What is read of a version. -/
theorem existsAnswer_eq (h : Represents L sha256 files bucket reg) (hm : accessCrate name = .ok m)
    (fails : Bool) (version : Version) :
    FsIndex.existsAnswer L version (pullFile fails files m.relPath) =
      if fails then .error .serviceError
      else
        match find (reg m.key) version with
        | none => .error .notFound
        | some r => .ok ⟨r.entry.yanked, r.entry.cksum⟩ := by
  unfold FsIndex.existsAnswer
  cases fails with
  | true => rfl
  | false =>
    by_cases hnil : reg m.key = []
    · simp only [h.deserialized_nil hm hnil, hnil]
      rfl
    · obtain ⟨q, hq⟩ := h.deserialized_cons hm hnil
      simp only [hq, find?_reverse_entries (h.unique m.key), Bool.false_eq_true, if_false]
      cases find (reg m.key) version <;> rfl

variable (newFails) in
/-- What `confirm_existence` says of a release. -/
theorem confirmExistence_eq (h : Represents L sha256 files bucket reg) (name : String)
    (version : Version) : FsIndex.confirmExistence L io.index files name version =
      match crate (faultsOf io newFails) reg name with
      | .error e => .error e
      | .ok (_, releases) =>
        match find releases version with
        | none => .error .notFound
        | some r => .ok ⟨r.entry.yanked, r.entry.cksum⟩ := by
  unfold FsIndex.confirmExistence
  cases hm : accessCrate name with
  | error e => simp only [crate_of_error hm]
  | ok m =>
    simp only [crate_of_ok hm, existsAnswer_eq h hm, faultsOf]
    cases io.index.pullFails <;> rfl

/-- Without a legacy object only the path with the checksum counts. -/
theorem pullCrate_eq_pullObject (hold : bucket (S3.oldPath name version.display) = none)
    (c : Checksum) : S3.pullCrate newFails oldFails bucket name version.display c =
      S3.pullObject newFails bucket (S3.newPath name version.display c) := by
  have herror : ∃ e,
      S3.pullObject oldFails bucket (S3.oldPath name version.display) = .error e := by
    cases oldFails with
    | true => exact ⟨_, rfl⟩
    | false => exact ⟨.notFound, by simp [S3.pullObject, hold]⟩
  obtain ⟨e, he⟩ := herror
  simp only [S3.pullCrate, S3.constructPaths, he]
  cases S3.pullObject newFails bucket (S3.newPath name version.display c) <;> rfl

/-- What a download gets of a release. -/
theorem pullCrate_eq (h : Represents L sha256 files bucket reg) (hm : accessCrate name = .ok m)
    (hfound : find (reg m.key) version = some r) :
    S3.pullCrate newFails oldFails bucket name version.display r.entry.cksum =
      if newFails then .error .serviceError
      else if r.entry.name = name then .ok r.tarball else .error .notFound := by
  rw [pullCrate_eq_pullObject (h.oldPath _ _), S3.pullObject, h.newPath_of_found hm hfound]
  split_ifs <;> rfl

variable (L sha256) in
/-- The stores of a server, and a registry that they represent. -/
def Stand (s : FsIndex.Files × S3.Bucket) (t : Registry × Unit) : Prop :=
  Represents L sha256 s.1 s.2 t.1

variable (L sha256 io newFails oldFails searchFiles listFiles) in
/-- The two stores, as a backend of the routes. -/
def stores : Backend FsIndex.Files S3.Bucket ε :=
  Backend.ofProviders sha256 (fsIndex L io.index searchFiles listFiles) (s3 io newFails oldFails)

/-- An error of the index, to a client. -/
abbrev indexFailure (e : IndexError) : Failure ε := .api (.index e)

theorem stores_sparseEntry (name : String) :
    (stores L sha256 io newFails oldFails searchFiles listFiles : Backend _ _ ε).sparseEntry name
      (files, bucket) =
      ((FsIndex.getSparseEntry L io.index files name).mapError indexFailure, files, bucket) := by
  simp only [stores, Backend.ofProviders, fsIndex, Tx.onFst, Tx.mapError]
  cases FsIndex.getSparseEntry L io.index files name <;> rfl

theorem sim_sparseEntry (name : String) : Tx.Sim (Stand L sha256)
    ((stores L sha256 io newFails oldFails searchFiles listFiles : Backend _ _ ε).sparseEntry name)
    ((backend sha256 (faultsOf io newFails)).sparseEntry name) := by
  intro (files, bucket) (reg, u) h
  have hreg : (backend sha256 (faultsOf io newFails) : Backend _ _ ε).sparseEntry name (reg, u) =
      ((FsIndex.getSparseEntry L io.index files name).mapError indexFailure, reg, u) := by
    unfold backend
    simp only [Tx.onFst_mapError, getSparseEntry_eq h]
  rw [stores_sparseEntry, hreg]
  exact ⟨rfl, h⟩

theorem stores_download (name : String) (version : Version) :
    (stores L sha256 io newFails oldFails searchFiles listFiles : Backend _ _ ε).download
      name version (files, bucket) =
      match FsIndex.confirmExistence L io.index files name version with
      | .error e => (.error (indexFailure e), files, bucket)
      | .ok e => ((S3.pullCrate newFails oldFails bucket name version.display
          e.tarballChecksum).mapError .storage, files, bucket) := by
  have hconfirm : ∀ r, FsIndex.confirmExistence L io.index files name version = r →
      Tx.onFst (τ := S3.Bucket) (Tx.mapError (indexFailure (ε := ε)) ((fsIndex L io.index
        searchFiles listFiles).confirmExistence name version)) (files, bucket) =
          (r.mapError indexFailure, files, bucket) := fun r hr => by
    rw [Tx.onFst_mapError, ← hr]
    rfl
  cases hr : FsIndex.confirmExistence L io.index files name version with
  | error e => exact Tx.bind_of_error (hconfirm _ hr)
  | ok e =>
    exact (Tx.bind_of_ok (hconfirm _ hr)).trans (Tx.onSnd_mapError _ _ _ _)

theorem sim_download (name : String) (version : Version) : Tx.Sim (Stand L sha256)
    ((stores L sha256 io newFails oldFails searchFiles listFiles : Backend _ _ ε).download
      name version)
    ((backend sha256 (faultsOf io newFails)).download name version) := by
  intro (files, bucket) (reg, u) h
  have hreg : (backend sha256 (faultsOf io newFails) : Backend _ _ ε).download name version
      (reg, u) =
      (((stores L sha256 io newFails oldFails searchFiles listFiles : Backend _ _ ε).download name
        version (files, bucket)).1, reg, u) := by
    change ((download _ name version reg).1, (download _ name version reg).2, u) = _
    rw [stores_download, confirmExistence_eq newFails h, download]
    cases hm : accessCrate name with
    | error e => simp only [crate_of_error hm]
    | ok m =>
      simp only [crate_of_ok hm]
      cases (faultsOf io newFails).readIndex with
      | true => rfl
      | false =>
        simp only [Bool.false_eq_true, if_false]
        cases hfound : find (reg m.key) version with
        | none => rfl
        | some r =>
          simp only [pullCrate_eq h hm hfound]
          cases newFails with
          | true => rfl
          | false =>
            change ((if r.entry.name = name then (_, reg) else (_, reg)).1,
              (if r.entry.name = name then (_, reg) else (_, reg)).2, u) =
                ((if r.entry.name = name then _ else _ : Except StorageError Bytes).mapError _, _)
            by_cases hname : r.entry.name = name
            · simp only [if_pos hname]
              rfl
            · simp only [if_neg hname]
              rfl
  rw [hreg]
  refine ⟨rfl, ?_⟩
  rw [stores_download]
  cases FsIndex.confirmExistence L io.index files name version <;> exact h

/-! ## Publishing -/

/-- The crate has a new file with the entries of its releases. -/
theorem isFile_update {q : Option Publish} (hne : releases ≠ []) (path : String) :
    IsFile L (Function.update files path
      (some (FsIndex.serializeData L (releases.map Release.entry) q))) path releases :=
  Or.inr ⟨hne, q, FsIndex.contentsOf_update_self (c := (releases.map Release.entry, q))⟩

/-- The other crates have the files that they had. -/
theorem isFile_of_ne {path path' : String} {data : Option Bytes} (hne : path' ≠ path)
    (h : IsFile L files path' releases) :
    IsFile L (Function.update files path data) path' releases := by
  have hsame : Function.update files path data path' = files path' := Function.update_of_ne hne _ _
  rcases h with ⟨hnil, hnone⟩ | ⟨hcons, q, hq⟩
  · exact Or.inl ⟨hnil, hsame.trans hnone⟩
  · exact Or.inr ⟨hcons, q, (FsIndex.contentsOf_congr hsame).trans hq⟩

theorem publishContents_eq (h : Represents L sha256 files bucket reg) {json : Publish}
    (hm : accessCrate json.name = .ok m) (fails : Bool) (c : Checksum) :
    FsIndex.publishContents L json c (pullFile fails files m.relPath) =
      if fails then .error .serviceError
      else
        match find (reg m.key) json.vers with
        | some _ => .error (FsIndex.alreadyExists json)
        | none => .ok ((reg m.key).map Release.entry ++ [FsIndex.release json c], some json) := by
  unfold FsIndex.publishContents
  cases fails with
  | true => rfl
  | false =>
    by_cases hnil : reg m.key = []
    · simp only [h.deserialized_nil hm hnil, hnil]
      rfl
    · obtain ⟨q, hq⟩ := h.deserialized_cons hm hnil
      simp only [hq, Bool.false_eq_true, if_false]
      cases hfound : find (reg m.key) json.vers with
      | none =>
        have hany : ((reg m.key).map Release.entry).any (·.vers = json.vers) = false := by
          simpa using find_eq_none.mp hfound
        simp [hany]
      | some r =>
        obtain ⟨hr, hvers⟩ := mem_of_find hfound
        have hany : ((reg m.key).map Release.entry).any (·.vers = json.vers) = true :=
          List.any_eq_true.mpr ⟨r.entry, List.mem_map_of_mem hr, decide_eq_true hvers⟩
        simp [hany]

/-- A publish of a version that is not there: the upload fails, the index write fails and the
clean-up follows, or all goes well. -/
theorem stores_publish (json : Publish) (crateBytes : Bytes) :
    let stored := Function.update bucket
      (S3.newPath json.name json.vers.display (sha256 crateBytes)) (some crateBytes)
    (stores L sha256 io newFails oldFails searchFiles listFiles : Backend _ _ ε).publish json
      crateBytes (files, bucket) =
      match accessCrate json.name with
      | .error e => (.error (indexFailure e), files, bucket)
      | .ok m =>
        match FsIndex.publishContents L json (sha256 crateBytes)
          (pullFile io.index.pullFails files m.relPath) with
        | .error e => (.error (indexFailure e), files, bucket)
        | .ok contents =>
          if io.putCrateFails then (.error (indexFailure .serviceError), files, bucket)
          else if io.index.putFails then
            (.error (indexFailure .serviceError), files, (S3.deleteCrate io.deleteNewFails
              io.deleteOldFails stored json.name json.vers.display (sha256 crateBytes)).2)
          else
            (.ok .noWarnings, Function.update files m.relPath
              (some (FsIndex.serializeData L contents.1 contents.2)), stored) := by
  intro stored
  have hout : ∀ r files' storedCrate bucket',
      FsIndex.publish L io.index files json (sha256 crateBytes)
        (fun _ => Routes.storeCrate sha256 (s3 io newFails oldFails) json crateBytes)
        (false, bucket) = (r, files', storedCrate, bucket') →
      (stores L sha256 io newFails oldFails searchFiles listFiles : Backend _ _ ε).publish json
        crateBytes (files, bucket) =
        match r with
        | .ok res =>
          if storedCrate then (.ok res, files', bucket') else (.error .panicked, files', bucket')
        | .error e =>
          if storedCrate then (.error (indexFailure e), files', (S3.deleteCrate io.deleteNewFails
            io.deleteOldFails bucket' json.name json.vers.display (sha256 crateBytes)).2)
          else (.error (indexFailure e), files', bucket') := by
    intro r files' storedCrate bucket' hr
    simp only [stores, Backend.ofProviders, Routes.publishStores, fsIndex, hr]
    cases r <;> cases storedCrate <;> rfl
  have hstore : Routes.storeCrate sha256 (s3 io newFails oldFails) json crateBytes (false, bucket) =
      if io.putCrateFails then (.error .serviceError, false, bucket)
      else (.ok (), true, stored) := by
    simp only [Routes.storeCrate, s3, S3.putCrate, S3.putObject]
    cases io.putCrateFails <;> rfl
  cases hm : accessCrate json.name with
  | error e => exact hout (.error e) files false bucket (by simp only [FsIndex.publish, hm])
  | ok m =>
    simp only
    cases hc : FsIndex.publishContents L json (sha256 crateBytes)
        (pullFile io.index.pullFails files m.relPath) with
    | error e => exact hout (.error e) files false bucket (by simp only [FsIndex.publish, hm, hc])
    | ok contents =>
      cases hput : io.putCrateFails with
      | true =>
        refine hout (.error .serviceError) files false bucket ?_
        simp only [FsIndex.publish, hm, hc, hstore, hput, if_true]
      | false =>
        cases hwrite : io.index.putFails with
        | true =>
          refine hout (.error .serviceError) files true stored ?_
          simp [FsIndex.publish, hm, hc, hstore, hput, FsIndex.putContents, FsIndex.putFile, hwrite]
        | false =>
          refine hout (.ok .noWarnings) _ true stored ?_
          simp [FsIndex.publish, hm, hc, hstore, hput, FsIndex.putContents, FsIndex.putFile, hwrite]

namespace Represents

/-- A crate has new releases, and a file with their entries. -/
theorem file_update (h : Represents L sha256 files bucket reg) (hm : accessCrate name = .ok m)
    (hne : releases ≠ []) (q : Option Publish) {name' : String} {m' : CrateMetaPath}
    (hm' : accessCrate name' = .ok m') :
    IsFile L (Function.update files m.relPath
        (some (FsIndex.serializeData L (releases.map Release.entry) q))) m'.relPath
      (Function.update reg m.key releases m'.key) := by
  by_cases hkey : m'.key = m.key
  · have hpath : m'.relPath = m.relPath := by
      have hrel' := (FsIndex.accessCrate_eq_ok.mp hm').2
      rw [hkey, (FsIndex.accessCrate_eq_ok.mp hm).2] at hrel'
      exact (Option.some.inj hrel').symm
    rw [hkey, hpath, Function.update_self]
    exact isFile_update hne _
  · rw [Function.update_of_ne hkey]
    refine isFile_of_ne (fun hpath => hkey ?_) (h.file name' m' hm')
    rw [FsIndex.relPath_inj hm' hm hpath]

theorem noOther_update (h : Represents L sha256 files bucket reg) (hm : accessCrate name = .ok m)
    (hne : releases ≠ []) (data : Bytes) {path : String}
    (hpath : Function.update files m.relPath (some data) path ≠ none) :
    ∃ name' m', accessCrate name' = .ok m' ∧ m'.relPath = path ∧
      Function.update reg m.key releases m'.key ≠ [] := by
  by_cases hself : path = m.relPath
  · exact ⟨name, m, hm, hself.symm, by rwa [Function.update_self]⟩
  · rw [Function.update_of_ne hself] at hpath
    obtain ⟨name', m', hm', hpath', hcons⟩ := h.noOther path hpath
    refine ⟨name', m', hm', hpath', ?_⟩
    rcases eq_or_ne m'.key m.key with hkey | hkey
    · rwa [hkey, Function.update_self]
    · rwa [Function.update_of_ne hkey]

theorem mem_update_append {key key' : String} {r' : Release} :
    r ∈ Function.update reg key (reg key ++ [r']) key' ↔ r ∈ reg key' ∨ key' = key ∧ r = r' := by
  rcases eq_or_ne key' key with rfl | hkey
  · simp
  · simp [hkey]

/-- **A release of a version that is not there.** -/
theorem publish (h : Represents L sha256 files bucket reg) {json : Publish}
    (hm : accessCrate json.name = .ok m) (hmissing : find (reg m.key) json.vers = none)
    (tarball : Bytes) :
    let r : Release := ⟨FsIndex.release json (sha256 tarball), tarball⟩
    Represents L sha256
      (Function.update files m.relPath (some (FsIndex.serializeData L
        ((reg m.key ++ [r]).map Release.entry) (some json))))
      (Function.update bucket (S3.newPath json.name json.vers.display (sha256 tarball))
        (some tarball))
      (Function.update reg m.key (reg m.key ++ [r])) := by
  intro r
  have hfree := h.newPath_of_missing hm hmissing (sha256 tarball)
  have hne : reg m.key ++ [r] ≠ [] := by simp
  refine ⟨fun _ _ => h.file_update hm hne _, fun _ => h.noOther_update hm hne _,
    fun path d => ?_, fun key r' hr' => ?_, fun key => ?_⟩
  · simp only [mem_update_append]
    constructor
    · intro hd
      by_cases hpath : path = S3.newPath json.name json.vers.display (sha256 tarball)
      · rw [hpath, Function.update_self] at hd
        exact ⟨m.key, r, Or.inr ⟨rfl, rfl⟩, hpath, (Option.some.inj hd).symm⟩
      · rw [Function.update_of_ne hpath] at hd
        obtain ⟨key, r', hr', hpath', htarball⟩ := (h.object path d).mp hd
        exact ⟨key, r', Or.inl hr', hpath', htarball⟩
    · rintro ⟨key, r', hr' | ⟨-, rfl⟩, rfl, rfl⟩
      · have hd := (h.object _ _).mpr ⟨key, r', hr', rfl, rfl⟩
        rwa [Function.update_of_ne]
        intro hpath
        rw [hpath, hfree] at hd
        cases hd
      · exact Function.update_self ..
  · rcases mem_update_append.mp hr' with hr' | ⟨rfl, rfl⟩
    · exact h.release key r' hr'
    · exact ⟨⟨m, hm, rfl⟩, rfl⟩
  · rcases eq_or_ne key m.key with rfl | hkey
    · rw [Function.update_self, List.map_append, List.nodup_append]
      refine ⟨h.unique m.key, List.nodup_singleton _, fun a ha b hb => ?_⟩
      obtain ⟨r', hr', rfl⟩ := List.mem_map.mp ha
      cases List.mem_singleton.mp hb
      exact find_eq_none.mp hmissing r' hr'
    · rw [Function.update_of_ne hkey]
      exact h.unique key

/-- What a clean-up takes back. -/
theorem cleanUp (h : Represents L sha256 files bucket reg) {json : Publish}
    (hm : accessCrate json.name = .ok m) (hmissing : find (reg m.key) json.vers = none)
    (oldFails : Bool) (tarball : Bytes) (c : Checksum) :
    (S3.deleteCrate false oldFails (Function.update bucket
      (S3.newPath json.name json.vers.display c) (some tarball)) json.name json.vers.display c).2 =
        bucket := by
  funext path
  rw [S3.deleteCrate_apply]
  split_ifs with hpath
  · rcases hpath with ⟨-, rfl⟩ | ⟨-, rfl⟩
    · exact (h.oldPath _ _).symm
    · exact (h.newPath_of_missing hm hmissing c).symm
  · exact Function.update_of_ne (fun hnew => hpath (Or.inr ⟨rfl, hnew⟩)) _ _

/-- **The flag of a release.** -/
theorem yank (h : Represents L sha256 files bucket reg) (hm : accessCrate name = .ok m)
    (hne : reg m.key ≠ []) (version : Version) (flag : Bool) (q : Option Publish) :
    Represents L sha256
      (Function.update files m.relPath (some (FsIndex.serializeData L
        (((reg m.key).map (setYanked version flag)).map Release.entry) q)))
      bucket (Function.update reg m.key ((reg m.key).map (setYanked version flag))) := by
  have hmap : (reg m.key).map (setYanked version flag) ≠ [] := by simpa using hne
  have hentry := @setYanked_entry version flag
  refine ⟨fun _ _ => h.file_update hm hmap _, fun _ => h.noOther_update hm hmap _,
    fun path d => (h.object path d).trans (exists_congr fun key => ?_), fun key r hr => ?_,
    fun key => ?_⟩
  · rcases eq_or_ne key m.key with rfl | hkey
    · rw [Function.update_self]
      constructor
      · rintro ⟨r, hr, rfl, rfl⟩
        obtain ⟨hname, hvers, hcksum, htarball⟩ := hentry r
        refine ⟨_, List.mem_map_of_mem hr, ?_, htarball.symm⟩
        simp only [entryPath, hname, hvers, hcksum]
      · rintro ⟨r', hr', rfl, rfl⟩
        obtain ⟨r, hr, rfl⟩ := List.mem_map.mp hr'
        obtain ⟨hname, hvers, hcksum, htarball⟩ := hentry r
        refine ⟨r, hr, ?_, htarball⟩
        simp only [entryPath, hname, hvers, hcksum]
    · rw [Function.update_of_ne hkey]
  · rcases eq_or_ne key m.key with rfl | hkey
    · rw [Function.update_self] at hr
      obtain ⟨r₀, hr₀, rfl⟩ := List.mem_map.mp hr
      obtain ⟨hname, -, hcksum, htarball⟩ := hentry r₀
      rw [hname, hcksum, htarball]
      exact h.release _ r₀ hr₀
    · rw [Function.update_of_ne hkey] at hr
      exact h.release key r hr
  · rcases eq_or_ne key m.key with rfl | hkey
    · rw [Function.update_self, List.map_map]
      have hvers : (fun r => r.entry.vers) ∘ setYanked version flag = fun r => r.entry.vers :=
        funext fun r => (hentry r).2.1
      rw [hvers]
      exact h.unique m.key
    · rw [Function.update_of_ne hkey]
      exact h.unique key

end Represents

theorem sim_publish (hclean : io.deleteNewFails = false) (json : Publish) (crateBytes : Bytes) :
    Tx.Sim (Stand L sha256)
      ((stores L sha256 io newFails oldFails searchFiles listFiles : Backend _ _ ε).publish json
        crateBytes)
      ((backend sha256 (faultsOf io newFails)).publish json crateBytes) := by
  intro (files, bucket) (reg, u) h
  have hreg : (backend sha256 (faultsOf io newFails) : Backend _ _ ε).publish json crateBytes
      (reg, u) = ((publish sha256 (faultsOf io newFails) json crateBytes reg).1.mapError
        indexFailure, (publish sha256 (faultsOf io newFails) json crateBytes reg).2, u) := by
    unfold backend
    simp only [Tx.onFst_mapError]
  rw [stores_publish, hreg, publish]
  cases hm : accessCrate json.name with
  | error e =>
    simp only [crate_of_error hm]
    exact ⟨rfl, h⟩
  | ok m =>
    simp only [crate_of_ok hm, publishContents_eq h hm, faultsOf]
    cases io.index.pullFails with
    | true => exact ⟨rfl, h⟩
    | false =>
      simp only [Bool.false_eq_true, if_false]
      cases hfound : find (reg m.key) json.vers with
      | some r => exact ⟨rfl, h⟩
      | none =>
        by_cases hput : io.putCrateFails = true
        · simp only [hput, Bool.true_or, if_true]
          exact ⟨rfl, h⟩
        by_cases hwrite : io.index.putFails = true
        · simp only [hput, hwrite, hclean, Bool.false_eq_true, Bool.or_true, if_true, if_false]
          rw [Represents.cleanUp h hm hfound]
          exact ⟨rfl, h⟩
        · simp only [hput, hwrite, Bool.or_self, Bool.false_eq_true, if_false]
          have hnew := h.publish hm hfound crateBytes
          simp only [List.map_append] at hnew
          exact ⟨rfl, hnew⟩

/-! ## Yanking -/

theorem stores_yank (flag : Bool) (name : String) (version : Version) :
    (stores L sha256 io newFails oldFails searchFiles listFiles : Backend _ _ ε).yank flag name
      version (files, bucket) =
      ((FsIndex.yankInner L io.index files name version flag).1.mapError indexFailure,
        (FsIndex.yankInner L io.index files name version flag).2, bucket) := by
  simp only [stores, Backend.ofProviders, fsIndex]
  cases flag with
  | true =>
    simp only [Tx.onFst, Tx.mapError]
    rcases FsIndex.yankInner L io.index files name version true with ⟨e | u, files'⟩ <;> rfl
  | false =>
    simp only [Tx.onFst, Tx.mapError]
    rcases FsIndex.yankInner L io.index files name version false with ⟨e | u, files'⟩ <;> rfl

theorem yankContents_eq (h : Represents L sha256 files bucket reg) (hm : accessCrate name = .ok m)
    (fails flag : Bool) (version : Version) :
    ∃ q, FsIndex.yankContents L version flag (pullFile fails files m.relPath) =
      if fails then .error .serviceError
      else
        match find (reg m.key) version with
        | none => .error .notFound
        | some _ => .ok (((reg m.key).map (setYanked version flag)).map Release.entry, q) := by
  unfold FsIndex.yankContents
  cases fails with
  | true => exact ⟨none, rfl⟩
  | false =>
    by_cases hnil : reg m.key = []
    · refine ⟨none, ?_⟩
      simp only [h.deserialized_nil hm hnil, hnil]
      rfl
    · obtain ⟨q, hq⟩ := h.deserialized_cons hm hnil
      refine ⟨q, ?_⟩
      simp only [hq, yankLast_entries flag (h.unique m.key), Bool.false_eq_true, if_false]
      cases find (reg m.key) version <;> rfl

theorem sim_yank (flag : Bool) (name : String) (version : Version) : Tx.Sim (Stand L sha256)
    ((stores L sha256 io newFails oldFails searchFiles listFiles : Backend _ _ ε).yank flag name
      version)
    ((backend sha256 (faultsOf io newFails)).yank flag name version) := by
  intro (files, bucket) (reg, u) h
  have hreg : (backend sha256 (faultsOf io newFails) : Backend _ _ ε).yank flag name version
      (reg, u) = ((Registry.yank (faultsOf io newFails) flag name version reg).1.mapError
        indexFailure, (Registry.yank (faultsOf io newFails) flag name version reg).2, u) := by
    unfold backend
    simp only [Tx.onFst_mapError]
  rw [stores_yank, hreg, Registry.yank, FsIndex.yankInner]
  cases hm : accessCrate name with
  | error e =>
    simp only [crate_of_error hm, true_and]
    exact h
  | ok m =>
    obtain ⟨q, hq⟩ := yankContents_eq h hm io.index.pullFails flag version
    simp only [crate_of_ok hm, hq, faultsOf]
    cases io.index.pullFails with
    | true =>
      simp only [if_true, true_and]
      exact h
    | false =>
      simp only [Bool.false_eq_true, if_false]
      cases hfound : find (reg m.key) version with
      | none => exact ⟨rfl, h⟩
      | some r =>
        have hne : reg m.key ≠ [] := List.ne_nil_of_mem (mem_of_find hfound).1
        simp only [FsIndex.putContents, FsIndex.putFile]
        by_cases hwrite : io.index.putFails = true
        · simp only [hwrite, if_true, true_and]
          exact h
        · simp only [hwrite, Bool.false_eq_true, if_false, true_and]
          exact h.yank hm hne version flag q

/-- **The two stores answer as the registry does**, when the clean-up does not fail. -/
theorem sim_stores (hclean : io.deleteNewFails = false) :
    Backend.Sim (Stand L sha256)
      (stores L sha256 io newFails oldFails searchFiles listFiles : Backend _ _ ε)
      (backend sha256 (faultsOf io newFails)) where
  sparseEntry := sim_sparseEntry
  download := sim_download
  publish := sim_publish hclean
  yank := sim_yank

end Calls

/-! ## Runs -/

section Runs

open Routes (fsIndex s3)

/-- A request on a crate, and what fails in the stores during it. -/
structure Call where
  headers : HeaderMap
  route : Routes.CrateRoute
  io : Server.Io := {}
  newFails : Bool := false
  oldFails : Bool := false

variable {α ε : Type} (L : Libs) (sha256 : Bytes → Checksum) (cfg : ServiceConfig)
  (X : Extractors) (A : Server.Io → AuthProvider α ε)
  (searchFiles : String → ℕ → Tx FsIndex.Files IndexError SearchResults)
  (listFiles : ListQuery → Tx FsIndex.Files IndexError ListAll)

/-- The server over the two stores. -/
def serveStores (s : α × FsIndex.Files × S3.Bucket) (c : Call) :
    Except (Failure ε) Answer × (α × FsIndex.Files × S3.Bucket) :=
  Routes.handle L sha256 cfg X (A c.io) (fsIndex L c.io.index searchFiles listFiles)
    (s3 c.io c.newFails c.oldFails) c.headers c.route.route s

/-- The server over the registry. -/
def serve (s : α × Registry × Unit) (c : Call) :
    Except (Failure ε) Answer × (α × Registry × Unit) :=
  (backend sha256 (faultsOf c.io c.newFails)).handle L cfg X (A c.io) c.headers c.route s

theorem sim_serve (s : α × FsIndex.Files × S3.Bucket) (t : α × Registry × Unit) (c : Call)
    (h : Backend.Beside (Stand L sha256) s t) (hclean : c.io.deleteNewFails = false) :
    (serveStores L sha256 cfg X A searchFiles listFiles s c).1 = (serve L sha256 cfg X A t c).1 ∧
      Backend.Beside (Stand L sha256) (serveStores L sha256 cfg X A searchFiles listFiles s c).2
        (serve L sha256 cfg X A t c).2 := by
  unfold serveStores serve
  rw [Backend.handle_eq]
  exact (sim_stores hclean).handle c.route s t h

/-- A run from stores that stand for a registry. -/
theorem sim_run {s : α × FsIndex.Files × S3.Bucket} {t : α × Registry × Unit}
    (h : Backend.Beside (Stand L sha256) s t) {calls : List Call}
    (hclean : ∀ c ∈ calls, c.io.deleteNewFails = false) :
    let stores := serveStores L sha256 cfg X A searchFiles listFiles
    let registry := serve L sha256 cfg X A
    Run.outputs stores s calls = Run.outputs registry t calls ∧
      Backend.Beside (Stand L sha256) (Run.final stores s calls) (Run.final registry t calls) := by
  intro stores registry
  have halong : Run.Along stores (fun _ c => c.io.deleteNewFails = false) s calls :=
    Run.along_iff.mpr fun pre c post e => hclean c (by rw [e]; simp)
  have hsim := sim_serve L sha256 cfg X A searchFiles listFiles
  refine ⟨Run.outputs_eq_of_sim hsim halong h, ?_⟩
  exact Run.final_of_sim (fun s t c h hc => (hsim s t c h hc).2) halong h

/-- The state of a server that has just been set up. -/
def newStores (a : α) : α × FsIndex.Files × S3.Bucket := (a, fun _ => none, fun _ => none)

variable {L sha256} in
theorem beside_new (a : α) : Backend.Beside (Stand L sha256) (newStores a) (a, empty, ()) :=
  ⟨rfl, represents_empty⟩

/-- **The server is a registry.** From empty stores it answers every run of requests on crates, with
whatever failures but for that of a clean-up, as the registry does; the files and the objects that
it ends with are those of the releases in the registry. -/
theorem registry_refines (L : Libs) (sha256 : Bytes → Checksum) (cfg : ServiceConfig)
    (X : Extractors) (A : Server.Io → AuthProvider α ε)
    (searchFiles : String → ℕ → Tx FsIndex.Files IndexError SearchResults)
    (listFiles : ListQuery → Tx FsIndex.Files IndexError ListAll) (a : α) (calls : List Call)
    (hclean : ∀ c ∈ calls, c.io.deleteNewFails = false) :
    let stores := serveStores L sha256 cfg X A searchFiles listFiles
    let registry := serve L sha256 cfg X A
    Run.outputs stores (newStores a) calls = Run.outputs registry (a, empty, ()) calls ∧
      (Run.final stores (newStores a) calls).1 = (Run.final registry (a, empty, ()) calls).1 ∧
      Represents L sha256 (Run.final stores (newStores a) calls).2.1
        (Run.final stores (newStores a) calls).2.2
        (Run.final registry (a, empty, ()) calls).2.1 :=
  sim_run L sha256 cfg X A searchFiles listFiles (beside_new a) hclean

end Runs

/-- A publish of `Foo` whose index write fails, one that goes well, and a download. -/
noncomputable def fooCalls : List Call :=
  let headers := [("authorization", (Server.authorizationOf FsAuth.tokenZero).getD [])]
  let route := Routes.CrateRoute.publish (Server.request Server.capitalFoo)
  [{ headers, route, io := { index := { putFails := true } } }, { headers, route },
    { headers, route := .serveCrate "/Foo/0.0.0" }]

theorem registry_refines_foo :
    let serve := serveStores Libs.canonical abcHash Routes.openConfig Routes.fooExtractors
      (fun io => Routes.fsAuth FsAuth.testHash io.auth) (fun _ _ => Tx.fail .serviceError)
      (fun _ => Tx.fail .serviceError)
    let registry := Registry.serve Libs.canonical abcHash Routes.openConfig
      Routes.fooExtractors (fun io => Routes.fsAuth FsAuth.testHash io.auth)
    let a := (Server.registered ∅).auth
    Run.outputs serve (newStores a) fooCalls = Run.outputs registry (a, empty, ()) fooCalls :=
  (registry_refines Libs.canonical abcHash Routes.openConfig Routes.fooExtractors
    (fun io => Routes.fsAuth FsAuth.testHash io.auth) (fun _ _ => Tx.fail .serviceError)
    (fun _ => Tx.fail .serviceError) (Server.registered ∅).auth fooCalls (by simp [fooCalls])).1

end Registry

end Freighter
