import Freighter.FsIndex.File
import Freighter.FsIndex.Path

/-!
# The filesystem index provider, one call at a time

* `publish`, `yankInner`, `confirmExistence`, `getSparseEntry` over a store of files whose reads
  and writes may fail; `publishContents` and `yankContents` are what they do to the contents of
  the file between the read and the write.
* **`publish_contract`**: when `publish` succeeds, when it runs `end_step`, what it writes and what
  it leaves.

`end_step` is a parameter: it may look at the files and changes a world of its own.
-/

namespace Freighter

namespace FsIndex

variable (L : Libs)

/-! ## The store -/

/-- The files, by path. -/
abbrev Files : Type := String → Option Bytes

/-- What the storage does during a call. -/
structure Io where
  pullFails : Bool := false
  putFails : Bool := false
deriving DecidableEq

def pullFile (pullFails : Bool) (files : Files) (path : String) : Except StorageError Bytes :=
  if pullFails then .error .serviceError
  else
    match files path with
    | none => .error .notFound
    | some data => .ok data

def putFile (putFails : Bool) (files : Files) (path : String) (bytes : Bytes) :
    Except StorageError Unit × Files :=
  if putFails then (.error .serviceError, files)
  else (.ok (), Function.update files path (some bytes))

/-! ## Between the read and the write -/

/-- `LockedMetaFile::deserialized`. -/
def deserialized (read : Except StorageError Bytes) : Except IndexError Contents :=
  match read with
  | .error e => .error e.toIndexError
  | .ok data => deserializeData L data

/-- The entry of a new version. -/
def release (publish : Publish) (tarballChecksum : Checksum) : CrateVersion where
  name := publish.name
  vers := publish.vers
  deps := publish.deps.map PublishDependency.toDependency
  cksum := tarballChecksum
  features := publish.features
  yanked := false
  links := publish.links
  v := 2
  features2 := ∅

def alreadyExists (publish : Publish) : IndexError :=
  .conflict (publish.name ++ "-" ++ publish.vers.display ++ " aleady exists")

/-- What `publish` writes. -/
def publishContents (publish : Publish) (tarballChecksum : Checksum)
    (read : Except StorageError Bytes) : Except IndexError Contents :=
  match deserialized L read with
  | .ok (existing, _) =>
    if existing.any (·.vers = publish.vers) then .error (alreadyExists publish)
    else .ok (existing ++ [release publish tarballChecksum], some publish)
  | .error .notFound => .ok ([release publish tarballChecksum], some publish)
  | .error other => .error other

/-- Set the flag of the last entry with the version; `none` when there is no such entry. -/
def yankLast (version : Version) (yank : Bool) : List CrateVersion → Option (List CrateVersion)
  | [] => none
  | v :: vs =>
    match yankLast version yank vs with
    | some vs => some (v :: vs)
    | none => if v.vers = version then some ({ v with yanked := yank } :: vs) else none

/-- What `yank_inner` writes. -/
def yankContents (version : Version) (yank : Bool) (read : Except StorageError Bytes) :
    Except IndexError Contents :=
  match deserialized L read with
  | .error e => .error e
  | .ok (entries, publish) =>
    match yankLast version yank entries with
    | none => .error .notFound
    | some entries => .ok (entries, publish)

/-- What `confirm_existence` answers. -/
def existsAnswer (version : Version) (read : Except StorageError Bytes) :
    Except IndexError CrateVersionExists :=
  match deserialized L read with
  | .error e => .error e
  | .ok (entries, _) =>
    match entries.reverse.find? (·.vers = version) with
    | none => .error .notFound
    | some e => .ok ⟨e.yanked, e.cksum⟩

/-! ## The calls -/

/-- `put_index_file` and `replace`. -/
def putContents (io : Io) (files : Files) (path : String) (c : Contents) :
    Except IndexError Unit × Files :=
  match putFile io.putFails files path (serializeData L c.1 c.2) with
  | (.ok (), files) => (.ok (), files)
  | (.error _, files) => (.error .serviceError, files)

def publish {ω : Type} (io : Io) (files : Files) (p : Publish) (tarballChecksum : Checksum)
    (endStep : Files → ω → Except IndexError Unit × ω) (w : ω) :
    Except IndexError CompletedPublication × Files × ω :=
  match accessCrate p.name with
  | .error e => (.error e, files, w)
  | .ok lock =>
    match publishContents L p tarballChecksum (pullFile io.pullFails files lock.relPath) with
    | .error e => (.error e, files, w)
    | .ok contents =>
      match endStep files w with
      | (.error e, w) => (.error e, files, w)
      | (.ok (), w) =>
        match putContents L io files lock.relPath contents with
        | (.error e, files) => (.error e, files, w)
        | (.ok (), files) => (.ok .noWarnings, files, w)

def yankInner (io : Io) (files : Files) (crateName : String) (version : Version) (yank : Bool) :
    Except IndexError Unit × Files :=
  match accessCrate crateName with
  | .error e => (.error e, files)
  | .ok lock =>
    match yankContents L version yank (pullFile io.pullFails files lock.relPath) with
    | .error e => (.error e, files)
    | .ok contents => putContents L io files lock.relPath contents

def confirmExistence (io : Io) (files : Files) (crateName : String) (version : Version) :
    Except IndexError CrateVersionExists :=
  match accessCrate crateName with
  | .error e => .error e
  | .ok lock => existsAnswer L version (pullFile io.pullFails files lock.relPath)

def getSparseEntry (io : Io) (files : Files) (crateName : String) :
    Except IndexError (List CrateVersion) :=
  match accessCrate crateName with
  | .error e => .error e
  | .ok lock => (deserialized L (pullFile io.pullFails files lock.relPath)).map Prod.fst

/-! ## What is read -/

section Read

variable {L}

/-- A file without this version: absent, or readable and without an entry of it. -/
def Lacks (L : Libs) (read : Except StorageError Bytes) (version : Version) : Prop :=
  read = .error .notFound ∨
    ∃ data c, read = .ok data ∧ deserializeData L data = .ok c ∧ ∀ v ∈ c.1, v.vers ≠ version

/-- A file with an entry of this version. -/
def Holds (L : Libs) (read : Except StorageError Bytes) (version : Version) : Prop :=
  ∃ data c, read = .ok data ∧ deserializeData L data = .ok c ∧ ∃ v ∈ c.1, v.vers = version

/-- The entries of a file; of an absent one, none. -/
def Entries (L : Libs) (read : Except StorageError Bytes) (existing : List CrateVersion) : Prop :=
  (read = .error .notFound ∧ existing = []) ∨
    ∃ data publish, read = .ok data ∧ deserializeData L data = .ok (existing, publish)

theorem lacks_iff {read : Except StorageError Bytes} {version : Version} :
    Lacks L read version ↔
      ∃ existing, Entries L read existing ∧ ∀ v ∈ existing, v.vers ≠ version := by
  constructor
  · rintro (h | ⟨data, c, hread, hc, hall⟩)
    · exact ⟨[], Or.inl ⟨h, rfl⟩, fun v hv => absurd hv List.not_mem_nil⟩
    · exact ⟨c.1, Or.inr ⟨data, c.2, hread, hc⟩, hall⟩
  · rintro ⟨existing, ⟨h, -⟩ | ⟨data, publish, hread, hc⟩, hall⟩
    · exact Or.inl h
    · exact Or.inr ⟨data, _, hread, hc, hall⟩

theorem Entries.eq_of_ok {data : Bytes} {existing : List CrateVersion} {c : Contents}
    (h : Entries L (.ok data) existing) (hc : deserializeData L data = .ok c) :
    existing = c.1 := by
  obtain ⟨h, -⟩ | ⟨data, publish, h, hc'⟩ := h
  · cases h
  · cases h
    cases hc'.symm.trans hc
    rfl

theorem not_lacks_of_holds {read : Except StorageError Bytes} {version : Version}
    (h : Holds L read version) : ¬ Lacks L read version := by
  obtain ⟨data, c, rfl, hc, v, hv, hvers⟩ := h
  rintro (h | ⟨data', c', h, hc', hall⟩)
  · cases h
  · cases h
    cases hc.symm.trans hc'
    exact hall v hv hvers

theorem deserializeLine_error {acc : Contents} {line : Bytes} {e : IndexError}
    (h : deserializeLine L acc line = .error e) : e = .serviceError := by
  unfold deserializeLine at h
  split at h
  · cases h
  · split at h
    · cases h
    · cases h
      rfl

/-- A file that is there is never taken for one that is not. -/
theorem deserializeData_error {data : Bytes} {e : IndexError}
    (h : deserializeData L data = .error e) : e = .serviceError := by
  unfold deserializeData at h
  generalize (([], none) : Contents) = acc at h
  generalize lines data = ls at h
  induction ls generalizing acc with
  | nil => cases h
  | cons line rest ih =>
    rw [List.foldlM_cons] at h
    cases hl : deserializeLine L acc line with
    | error e' =>
      rw [hl] at h
      cases h
      exact deserializeLine_error hl
    | ok acc' =>
      rw [hl] at h
      exact ih acc' h

theorem deserialized_notFound {read : Except StorageError Bytes} :
    deserialized L read = .error .notFound ↔ read = .error .notFound := by
  unfold deserialized
  cases read with
  | error e => cases e <;> simp [StorageError.toIndexError]
  | ok data =>
    constructor
    · intro h
      exact absurd (deserializeData_error h) (by decide)
    · intro h
      cases h

/-- **What `publish` writes**: the entries of the file, the new one after them, and the request. -/
theorem publishContents_eq_ok {p : Publish} {c : Checksum} {read : Except StorageError Bytes}
    {contents : Contents} :
    publishContents L p c read = .ok contents ↔
      ∃ existing, Entries L read existing ∧ (∀ v ∈ existing, v.vers ≠ p.vers) ∧
        contents = (existing ++ [release p c], some p) := by
  unfold publishContents
  cases hd : deserialized L read with
  | error e =>
    cases read with
    | error e' =>
      cases e' <;> cases hd <;> simp [Entries, StorageError.toIndexError, eq_comm]
    | ok data =>
      cases deserializeData_error hd
      simp only [reduceCtorEq, false_iff]
      rintro ⟨existing, ⟨hr, -⟩ | ⟨d, q, hr, hq⟩, -⟩
      · cases hr
      · cases hr
        exact absurd (hd.symm.trans hq) (by simp)
  | ok q =>
    cases read with
    | error e' => cases hd
    | ok data =>
      by_cases hany : q.1.any (·.vers = p.vers) = true
      · simp only [hany, if_true, reduceCtorEq, false_iff]
        rintro ⟨existing, he, hall, -⟩
        obtain ⟨v, hv, hvers⟩ := List.any_eq_true.mp hany
        exact hall v (he.eq_of_ok hd ▸ hv) (by simpa using hvers)
      · simp only [hany, Bool.false_eq_true, if_false, Except.ok.injEq]
        constructor
        · rintro rfl
          refine ⟨q.1, Or.inr ⟨data, q.2, rfl, hd⟩, fun v hv hvers => hany ?_, rfl⟩
          exact List.any_eq_true.mpr ⟨v, hv, by simpa using hvers⟩
        · rintro ⟨existing, he, -, rfl⟩
          rw [he.eq_of_ok hd]

/-- **When `publish` has something to write.** -/
theorem publishContents_ok {p : Publish} {c : Checksum} {read : Except StorageError Bytes} :
    (∃ contents, publishContents L p c read = .ok contents) ↔ Lacks L read p.vers := by
  rw [lacks_iff]
  constructor
  · rintro ⟨contents, h⟩
    obtain ⟨existing, he, hall, -⟩ := publishContents_eq_ok.mp h
    exact ⟨existing, he, hall⟩
  · rintro ⟨existing, he, hall⟩
    exact ⟨_, publishContents_eq_ok.mpr ⟨existing, he, hall, rfl⟩⟩

theorem publishContents_holds {p : Publish} {c : Checksum} {read : Except StorageError Bytes}
    (h : Holds L read p.vers) : publishContents L p c read = .error (alreadyExists p) := by
  obtain ⟨data, q, rfl, hq, v, hv, hvers⟩ := h
  unfold publishContents deserialized
  simp only [hq]
  rw [if_pos (List.any_eq_true.mpr ⟨v, hv, by simpa using hvers⟩)]

end Read

/-! ## The contract of `publish` -/

section Contract

variable {L} {ω : Type} {io : Io} {files : Files} {p : Publish} {c : Checksum}
  {endStep : Files → ω → Except IndexError Unit × ω} {w : ω}

/-- The name is allowed and the file is absent, or is readable and lacks the version. -/
def Accepts (L : Libs) (io : Io) (files : Files) (p : Publish) : Prop :=
  ∃ lock, accessCrate p.name = .ok lock ∧
    Lacks L (pullFile io.pullFails files lock.relPath) p.vers

variable (c endStep w) in
/-- A request that is not accepted stops before `end_step`. -/
theorem publish_of_not_accepts (h : ¬ Accepts L io files p) :
    ∃ e, publish L io files p c endStep w = (.error e, files, w) := by
  unfold publish
  cases ha : accessCrate p.name with
  | error e => exact ⟨e, rfl⟩
  | ok lock =>
    simp only
    cases hc : publishContents L p c (pullFile io.pullFails files lock.relPath) with
    | error e => exact ⟨e, rfl⟩
    | ok contents => exact absurd ⟨lock, ha, publishContents_ok.mp ⟨contents, hc⟩⟩ h

variable (c endStep w) in
/-- A request that is accepted runs `end_step` on the files as they were, and then writes one
file. -/
theorem publish_of_accepts (h : Accepts L io files p) :
    ∃ lock existing, accessCrate p.name = .ok lock ∧
      Entries L (pullFile io.pullFails files lock.relPath) existing ∧
      publish L io files p c endStep w =
        match endStep files w with
        | (.error e, w) => (.error e, files, w)
        | (.ok (), w) =>
          if io.putFails then (.error .serviceError, files, w)
          else (.ok .noWarnings, Function.update files lock.relPath
            (some (serializeData L (existing ++ [release p c]) (some p))), w) := by
  obtain ⟨lock, ha, hl⟩ := h
  obtain ⟨existing, he, hall⟩ := lacks_iff.mp hl
  have hc := publishContents_eq_ok (c := c).mpr ⟨existing, he, hall, rfl⟩
  refine ⟨lock, existing, ha, he, ?_⟩
  unfold publish putContents putFile
  rw [ha]
  simp only [hc]
  cases endStep files w with
  | mk r w' =>
    cases r with
    | error e => rfl
    | ok _ =>
      by_cases hf : io.putFails = true
      · simp only [hf, if_true]
      · simp only [hf, if_false, Bool.false_eq_true]

theorem publish_ok_iff : (∃ r, (publish L io files p c endStep w).1 = .ok r) ↔
    Accepts L io files p ∧ (endStep files w).1 = .ok () ∧ io.putFails = false := by
  by_cases h : Accepts L io files p
  · obtain ⟨lock, existing, -, -, hp⟩ := publish_of_accepts c endStep w h
    rw [hp]
    cases endStep files w with
    | mk r w' =>
      cases r with
      | error e => simp
      | ok _ =>
        by_cases hf : io.putFails = true
        · simp [hf]
        · simp only [hf, h, true_and, Bool.not_eq_true] at hf ⊢
          exact ⟨fun _ => hf, fun _ => ⟨_, rfl⟩⟩
  · obtain ⟨e, hp⟩ := publish_of_not_accepts c endStep w h
    rw [hp]
    simp [h]

theorem publish_world (h : Accepts L io files p) :
    (publish L io files p c endStep w).2.2 = (endStep files w).2 := by
  obtain ⟨lock, existing, -, -, hp⟩ := publish_of_accepts c endStep w h
  rw [hp]
  cases endStep files w with
  | mk r w' =>
    cases r with
    | error e => rfl
    | ok _ => by_cases hf : io.putFails = true <;> simp [hf]

theorem publish_conflict {lock : CrateMetaPath} (ha : accessCrate p.name = .ok lock)
    (hh : Holds L (pullFile io.pullFails files lock.relPath) p.vers) :
    publish L io files p c endStep w = (.error (alreadyExists p), files, w) := by
  unfold publish
  rw [ha]
  simp only [publishContents_holds hh]

theorem not_accepts_of_holds {lock : CrateMetaPath} (ha : accessCrate p.name = .ok lock)
    (hh : Holds L (pullFile io.pullFails files lock.relPath) p.vers) :
    ¬ Accepts L io files p := by
  rintro ⟨lock', ha', hl⟩
  cases ha.symm.trans ha'
  exact not_lacks_of_holds hh hl

theorem publish_error {e : IndexError} (h : (publish L io files p c endStep w).1 = .error e) :
    (publish L io files p c endStep w).2.1 = files := by
  by_cases hacc : Accepts L io files p
  · obtain ⟨lock, existing, -, -, hp⟩ := publish_of_accepts c endStep w hacc
    rw [hp] at h ⊢
    cases he : endStep files w with
    | mk r w' =>
      rw [he] at h
      cases r with
      | error e => rfl
      | ok _ =>
        by_cases hf : io.putFails = true
        · simp [hf]
        · simp [hf] at h
  · obtain ⟨e', hp⟩ := publish_of_not_accepts c endStep w hacc
    rw [hp]

/-- **What a successful `publish` leaves**: one file has changed, by the entry. -/
theorem publish_written {r : CompletedPublication}
    (h : (publish L io files p c endStep w).1 = .ok r) :
    ∃ lock existing, accessCrate p.name = .ok lock ∧
      Entries L (pullFile io.pullFails files lock.relPath) existing ∧
      (publish L io files p c endStep w).2.1 = Function.update files lock.relPath
        (some (serializeData L (existing ++ [release p c]) (some p))) := by
  obtain ⟨hacc, he, hf⟩ := publish_ok_iff.mp ⟨r, h⟩
  obtain ⟨lock, existing, ha, hentries, hp⟩ := publish_of_accepts c endStep w hacc
  refine ⟨lock, existing, ha, hentries, ?_⟩
  rw [hp]
  cases hstep : endStep files w with
  | mk e w' =>
    rw [hstep] at he
    cases he
    simp only [hf, Bool.false_eq_true, if_false]

/-- **The contract of `publish`.** It succeeds iff the name is allowed, the file is absent or is
readable and lacks the version, `end_step` succeeds and the write does; then the file has the
entries it had, the new one and the request, and no other file has changed. `end_step` runs once, on
files that are as they were, when the request is accepted, and not at all otherwise; a version that
exists is a conflict; a failed `publish` leaves every file as it was. -/
theorem publish_contract (L : Libs) {ω : Type} (io : Io) (files : Files) (p : Publish)
    (c : Checksum) (endStep : Files → ω → Except IndexError Unit × ω) (w : ω) :
    let out := publish L io files p c endStep w
    ((∃ r, out.1 = .ok r) ↔
      Accepts L io files p ∧ (endStep files w).1 = .ok () ∧ io.putFails = false) ∧
    (∀ r, out.1 = .ok r → ∃ lock existing, accessCrate p.name = .ok lock ∧
      Entries L (pullFile io.pullFails files lock.relPath) existing ∧
      out.2.1 = Function.update files lock.relPath
        (some (serializeData L (existing ++ [release p c]) (some p)))) ∧
    (Accepts L io files p → out.2.2 = (endStep files w).2) ∧
    (¬ Accepts L io files p → (∃ e, out.1 = .error e) ∧ out.2.2 = w) ∧
    (∀ lock, accessCrate p.name = .ok lock →
      Holds L (pullFile io.pullFails files lock.relPath) p.vers →
        ¬ Accepts L io files p ∧ out.1 = .error (alreadyExists p)) ∧
    (∀ e, out.1 = .error e → out.2.1 = files) := by
  refine ⟨publish_ok_iff, fun _ => publish_written, publish_world, fun h => ?_,
    fun lock ha hh => ?_, fun _ => publish_error⟩
  · obtain ⟨e, hp⟩ := publish_of_not_accepts c endStep w h
    rw [hp]
    exact ⟨⟨e, rfl⟩, rfl⟩
  · exact ⟨not_accepts_of_holds ha hh, by rw [publish_conflict ha hh]⟩

end Contract

section Foo

/-- The version 1.0.0 of `foo`. -/
def fooOne : Publish := { Publish.empty with name := "foo", vers := Version.new 1 0 0 }

def fooTwo : Publish := { fooOne with vers := Version.new 2 0 0 }

def zeros : Checksum := List.Vector.replicate 32 0

/-- A store with the first version. -/
noncomputable def storedFoo : Files :=
  Function.update (fun _ => none) "index/3/f/foo"
    (some (serializeData Libs.canonical [release fooOne zeros] (some fooOne)))

theorem pullFile_storedFoo : pullFile false storedFoo "index/3/f/foo" =
    .ok (serializeData Libs.canonical [release fooOne zeros] (some fooOne)) := by
  simp [pullFile, storedFoo]

/-- The second version is published after the first, with an `end_step` that counts its runs. -/
theorem publish_contract_second :
    let out := publish Libs.canonical {} storedFoo fooTwo zeros
      (fun _ (n : ℕ) => (.ok (), n + 1)) 0
    (∃ r, out.1 = .ok r) ∧ out.2.2 = 1 ∧ out.2.1 "index/3/f/foo" =
      some (serializeData Libs.canonical [release fooOne zeros, release fooTwo zeros]
        (some fooTwo)) := by
  intro out
  have hlock : accessCrate fooTwo.name = .ok ⟨"foo", "index/3/f/foo"⟩ := by decide
  have hacc : Accepts Libs.canonical {} storedFoo fooTwo := by
    refine ⟨_, hlock, Or.inr ⟨_, _, pullFile_storedFoo, deserializeData_serializeData _ _ _, ?_⟩⟩
    simp [release, fooOne, fooTwo, Version.new]
  obtain ⟨hok, hwritten, hworld, -⟩ := publish_contract Libs.canonical {} storedFoo fooTwo zeros
    (fun _ (n : ℕ) => (.ok (), n + 1)) 0
  obtain ⟨r, hr⟩ := hok.mpr ⟨hacc, rfl, rfl⟩
  obtain ⟨lock, existing, ha, hentries, hfiles⟩ := hwritten r hr
  cases hlock.symm.trans ha
  rw [show pullFile _ storedFoo _ = _ from pullFile_storedFoo] at hentries
  obtain rfl := hentries.eq_of_ok (deserializeData_serializeData _ _ _)
  refine ⟨⟨r, hr⟩, hworld hacc, ?_⟩
  exact (congrFun hfiles _).trans (Function.update_self _ _ _)

end Foo

end FsIndex

end Freighter
