import Freighter.Server.Registry

/-!
# The index over a store

`FsIndexProvider` over any `MetadataStorageProvider`.

* `MetadataStorage`; `publishOver`, `yankOver`, `sparseEntryOver`, `existenceOver`, `indexOver`;
* **`indexOver_files`**: over a map of files these are the calls of the other modules;
* `MetadataStorage.Sim`: stores that answer alike at the paths of index files;
  **`IndexProvider.Sim`**, `Sim.indexOver`: then the index answers alike.
-/

namespace Freighter

namespace FsIndex

/-- `MetadataStorageProvider`, what the calls on a crate use of it. -/
structure MetadataStorage (σ : Type) where
  pullFile : String → Tx σ StorageError Bytes
  putFile : String → Bytes → Tx σ StorageError Unit

section Over

variable {σ ω : Type} (L : Libs) (M : MetadataStorage σ)

/-- `put_index_file` and `replace`. -/
def storeContents (path : String) (c : Contents) : Tx σ IndexError Unit :=
  (M.putFile path (serializeData L c.1 c.2)).mapError fun _ => .serviceError

def publishOver (p : Publish) (tarballChecksum : Checksum) (endStep : Tx ω IndexError Unit) :
    Tx (σ × ω) IndexError CompletedPublication := do
  let lock ← Tx.lift (accessCrate p.name)
  let read ← (M.pullFile lock.relPath).attempt.onFst
  let contents ← Tx.lift (publishContents L p tarballChecksum read)
  endStep.onSnd
  (storeContents L M lock.relPath contents).onFst
  Tx.answer .noWarnings

def yankOver (yank : Bool) (crateName : String) (version : Version) : Tx σ IndexError Unit := do
  let lock ← Tx.lift (accessCrate crateName)
  let read ← (M.pullFile lock.relPath).attempt
  let contents ← Tx.lift (yankContents L version yank read)
  storeContents L M lock.relPath contents

def existenceOver (crateName : String) (version : Version) :
    Tx σ IndexError CrateVersionExists := do
  let lock ← Tx.lift (accessCrate crateName)
  let read ← (M.pullFile lock.relPath).attempt
  Tx.lift (existsAnswer L version read)

def sparseEntryOver (crateName : String) : Tx σ IndexError (List CrateVersion) := do
  let lock ← Tx.lift (accessCrate crateName)
  let read ← (M.pullFile lock.relPath).attempt
  Tx.lift ((deserialized L read).map Prod.fst)

/-- The index over a store, with its listings as parameters. -/
def indexOver (search : String → ℕ → Tx σ IndexError SearchResults)
    (list : ListQuery → Tx σ IndexError ListAll) : Routes.IndexProvider σ where
  getSparseEntry := sparseEntryOver L M
  confirmExistence := existenceOver L M
  yankCrate := yankOver L M true
  unyankCrate := yankOver L M false
  search := search
  list := list
  publish := publishOver L M

end Over

/-! ## Over a map of files -/

/-- The files as a store. -/
def fileStorage (io : Io) : MetadataStorage Files where
  pullFile path files := (pullFile io.pullFails files path, files)
  putFile path bytes files := putFile io.putFails files path bytes

section Files

variable {L : Libs} {io : Io}

theorem storeContents_files (path : String) (c : Contents) (files : Files) :
    storeContents L (fileStorage io) path c files = putContents L io files path c := by
  unfold storeContents putContents
  rw [Tx.mapError_apply]
  rcases h : putFile io.putFails files path (serializeData L c.1 c.2) with ⟨e | u, files'⟩ <;>
    simp only [fileStorage, h] <;> rfl

/-- What follows a read. -/
theorem read_files {β : Type} (path : String)
    (f : Except StorageError Bytes → Tx Files IndexError β) (files : Files) :
    (((fileStorage io).pullFile path).attempt >>= f) files =
      f (pullFile io.pullFails files path) files :=
  Tx.attempt_bind_apply _ f files

theorem yankOver_files (yank : Bool) (crateName : String) (version : Version) (files : Files) :
    yankOver L (fileStorage io) yank crateName version files =
      yankInner L io files crateName version yank := by
  unfold yankOver yankInner
  rw [Tx.lift_bind_apply]
  cases accessCrate crateName with
  | error e => rfl
  | ok lock =>
    simp only [read_files, Tx.lift_bind_apply]
    cases yankContents L version yank (pullFile io.pullFails files lock.relPath) with
    | error e => rfl
    | ok contents => exact storeContents_files _ _ _

theorem existenceOver_files (crateName : String) (version : Version) (files : Files) :
    existenceOver L (fileStorage io) crateName version files =
      (confirmExistence L io files crateName version, files) := by
  unfold existenceOver confirmExistence
  rw [Tx.lift_bind_apply]
  cases accessCrate crateName <;> rfl

theorem sparseEntryOver_files (crateName : String) (files : Files) :
    sparseEntryOver L (fileStorage io) crateName files =
      (getSparseEntry L io files crateName, files) := by
  unfold sparseEntryOver getSparseEntry
  rw [Tx.lift_bind_apply]
  cases accessCrate crateName <;> rfl

theorem publishOver_files {ω : Type} (p : Publish) (tarballChecksum : Checksum)
    (endStep : Tx ω IndexError Unit) (files : Files) (w : ω) :
    publishOver L (fileStorage io) p tarballChecksum endStep (files, w) =
      publish L io files p tarballChecksum (fun _ => endStep) w := by
  unfold publishOver publish
  rw [Tx.lift_bind_apply]
  cases accessCrate p.name with
  | error e => rfl
  | ok lock =>
    have hread : ∀ f : Except StorageError Bytes → Tx (Files × ω) IndexError CompletedPublication,
        (((fileStorage io).pullFile lock.relPath).attempt.onFst >>= f) (files, w) =
          f (pullFile io.pullFails files lock.relPath) (files, w) := fun _ => rfl
    simp only [hread, Tx.lift_bind_apply]
    cases publishContents L p tarballChecksum (pullFile io.pullFails files lock.relPath) with
    | error e => rfl
    | ok contents =>
      simp only
      cases hend : endStep w with
      | mk r w' =>
        cases r with
        | error e =>
          have hstep : endStep.onSnd (files, w) = (.error e, files, w') := by
            simp only [Tx.onSnd, hend]
          exact Tx.bind_of_error hstep
        | ok u =>
          have hstep : endStep.onSnd (files, w) = (.ok u, files, w') := by
            simp only [Tx.onSnd, hend]
          refine (Tx.bind_of_ok hstep).trans ?_
          have hstore : (storeContents L (fileStorage io) lock.relPath contents).onFst (files, w') =
              ((putContents L io files lock.relPath contents).1,
                (putContents L io files lock.relPath contents).2, w') := by
            simp only [Tx.onFst, storeContents_files]
          cases hput : putContents L io files lock.relPath contents with
          | mk r files' =>
            rw [hput] at hstore
            cases r with
            | error e => exact Tx.bind_of_error hstore
            | ok u => exact Tx.bind_of_ok hstore

/-- **Over a map of files** these are the calls of `FsIndexProvider`. -/
theorem indexOver_files (search : String → ℕ → Tx Files IndexError SearchResults)
    (list : ListQuery → Tx Files IndexError ListAll) :
    indexOver L (fileStorage io) search list = Routes.fsIndex L io search list := by
  have hsparse : sparseEntryOver L (fileStorage io) = fun crateName files =>
      (getSparseEntry L io files crateName, files) :=
    funext fun _ => funext fun _ => sparseEntryOver_files _ _
  have hexistence : existenceOver L (fileStorage io) = fun crateName version files =>
      (confirmExistence L io files crateName version, files) :=
    funext fun _ => funext fun _ => funext fun _ => existenceOver_files _ _ _
  have hyank : ∀ yank, yankOver L (fileStorage io) yank = fun crateName version files =>
      yankInner L io files crateName version yank := fun _ =>
    funext fun _ => funext fun _ => funext fun _ => yankOver_files _ _ _ _
  unfold indexOver Routes.fsIndex
  rw [hsparse, hexistence, hyank, hyank]
  congr 1
  funext ω p tarballChecksum endStep w
  exact publishOver_files _ _ _ _ _

end Files

/-! ## Stores that answer alike -/

section Sim

variable {σ τ : Type} {R : σ → τ → Prop} {M : MetadataStorage σ} {N : MetadataStorage τ}

/-- At the paths of index files the two stores answer alike, and they leave related stores. -/
structure MetadataStorage.Sim (R : σ → τ → Prop) (M : MetadataStorage σ) (N : MetadataStorage τ) :
    Prop where
  pullFile : ∀ name m, accessCrate name = .ok m →
    Tx.Sim R (M.pullFile m.relPath) (N.pullFile m.relPath)
  putFile : ∀ name m bytes, accessCrate name = .ok m →
    Tx.Sim R (M.putFile m.relPath bytes) (N.putFile m.relPath bytes)

variable {L : Libs}

theorem MetadataStorage.Sim.sparseEntry (h : M.Sim R N) (crateName : String) :
    Tx.Sim R (sparseEntryOver L M crateName) (sparseEntryOver L N crateName) :=
  Tx.sim_lift_bind fun lock hlock =>
    (h.pullFile crateName lock hlock).attempt.bind fun _ => Tx.sim_lift _

theorem MetadataStorage.Sim.existence (h : M.Sim R N) (crateName : String) (version : Version) :
    Tx.Sim R (existenceOver L M crateName version) (existenceOver L N crateName version) :=
  Tx.sim_lift_bind fun lock hlock =>
    (h.pullFile crateName lock hlock).attempt.bind fun _ => Tx.sim_lift _

theorem MetadataStorage.Sim.yank (h : M.Sim R N) (yank : Bool) (crateName : String)
    (version : Version) :
    Tx.Sim R (yankOver L M yank crateName version) (yankOver L N yank crateName version) :=
  Tx.sim_lift_bind fun lock hlock =>
    (h.pullFile crateName lock hlock).attempt.bind fun _ => Tx.sim_lift_bind fun _ _ =>
      (h.putFile crateName lock _ hlock).mapError

theorem MetadataStorage.Sim.publish {ω : Type} (h : M.Sim R N) (p : Publish)
    (tarballChecksum : Checksum) (endStep : Tx ω IndexError Unit) :
    Tx.Sim (fun s t => R s.1 t.1 ∧ s.2 = t.2) (publishOver L M p tarballChecksum endStep)
      (publishOver L N p tarballChecksum endStep) := by
  refine Tx.sim_lift_bind fun lock hlock => ?_
  refine (h.pullFile p.name lock hlock).attempt.onFst.bind fun read => ?_
  refine Tx.sim_lift_bind fun contents _ => ?_
  refine (Tx.sim_onSnd endStep).bind fun _ => ?_
  exact (h.putFile p.name lock _ hlock).mapError.onFst.bind fun _ => Tx.sim_answer _

end Sim

end FsIndex

namespace Routes

section Sim

variable {ι κ σ ε : Type} {R : ι → κ → Prop} {I : IndexProvider ι} {J : IndexProvider κ}

/-- From related indices the calls on a crate answer alike, and they leave related indices. -/
structure IndexProvider.Sim (R : ι → κ → Prop) (I : IndexProvider ι) (J : IndexProvider κ) :
    Prop where
  getSparseEntry : ∀ name, Tx.Sim R (I.getSparseEntry name) (J.getSparseEntry name)
  confirmExistence : ∀ name version,
    Tx.Sim R (I.confirmExistence name version) (J.confirmExistence name version)
  yankCrate : ∀ name version, Tx.Sim R (I.yankCrate name version) (J.yankCrate name version)
  unyankCrate : ∀ name version, Tx.Sim R (I.unyankCrate name version) (J.unyankCrate name version)
  publish : ∀ {ω : Type} p c (endStep : Tx ω IndexError Unit),
    Tx.Sim (fun s t => R s.1 t.1 ∧ s.2 = t.2) (I.publish p c endStep) (J.publish p c endStep)

/-- **Stores that answer alike** make indices that do. -/
theorem sim_indexOver {L : Libs} {M : FsIndex.MetadataStorage ι} {N : FsIndex.MetadataStorage κ}
    (h : M.Sim R N) (search : String → ℕ → Tx ι IndexError SearchResults)
    (list : ListQuery → Tx ι IndexError ListAll)
    (search' : String → ℕ → Tx κ IndexError SearchResults)
    (list' : ListQuery → Tx κ IndexError ListAll) :
    IndexProvider.Sim R (FsIndex.indexOver L M search list)
      (FsIndex.indexOver L N search' list') where
  getSparseEntry := h.sparseEntry
  confirmExistence := h.existence
  yankCrate := h.yank true
  unyankCrate := h.yank false
  publish := h.publish

/-- The same bucket, and related indices. -/
def Above (R : ι → κ → Prop) (s : ι × σ) (t : κ × σ) : Prop := R s.1 t.1 ∧ s.2 = t.2

theorem sim_publishStores (h : IndexProvider.Sim R I J) {sha256 : Bytes → Checksum}
    (S : StorageProvider σ) (json : Publish) (crateBytes : Bytes) :
    Tx.Sim (Above R) ((Backend.ofProviders sha256 I S : Backend ι σ ε).publish json crateBytes)
      ((Backend.ofProviders sha256 J S).publish json crateBytes) := by
  intro (i, s) (j, s') ⟨hij, hs⟩
  cases hs
  obtain ⟨hanswer, hindex, hworld⟩ := h.publish json (sha256 crateBytes)
    (storeCrate sha256 S json crateBytes) (i, false, s) (j, false, s) ⟨hij, rfl⟩
  simp only [Backend.ofProviders, publishStores]
  rcases hI : I.publish json (sha256 crateBytes) (storeCrate sha256 S json crateBytes)
    (i, false, s) with ⟨r, i', storedCrate, s₁⟩
  rcases hJ : J.publish json (sha256 crateBytes) (storeCrate sha256 S json crateBytes)
    (j, false, s) with ⟨r', j', w⟩
  rw [hI, hJ] at hanswer hindex hworld
  cases hanswer
  cases hworld
  cases r <;> cases storedCrate <;> exact ⟨rfl, hindex, rfl⟩

/-- **Indices that answer alike** make backends that do. -/
theorem Backend.sim_ofProviders (h : IndexProvider.Sim R I J) (sha256 : Bytes → Checksum)
    (S : StorageProvider σ) :
    Backend.Sim (Above R) (Backend.ofProviders sha256 I S : Backend ι σ ε)
      (Backend.ofProviders sha256 J S) where
  sparseEntry name := (h.getSparseEntry name).mapError.onFst
  download name version :=
    (h.confirmExistence name version).mapError.onFst.bind fun _ => Tx.sim_onSnd _
  publish := sim_publishStores h S
  yank flag name version := by
    cases flag with
    | true => exact (h.yankCrate name version).mapError.onFst
    | false => exact (h.unyankCrate name version).mapError.onFst

end Sim

end Routes

end Freighter
