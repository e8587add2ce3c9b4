import Freighter.Server.Layout
import Freighter.Server.MetadataStorage
import Freighter.Server.Refinement
import Freighter.Storage.Mirror

/-!
# The index on a disk

The server over `FsIndexProvider` over `FsStorageProvider`.

* `indexKeys`: the keys of the index files, which are apart; `diskStorage`: the store;
* `OnDisk`: the disk has the index files, and is otherwise as it was; **`sim_diskStorage`**;
* **`disk_refines`**: a server with its index on a disk is a registry, and touches nothing on the
  disk but the index.
-/

namespace Freighter

namespace FsIndex

open FileTree UnixPath
open FsStorage (Family Key Mirrors Rooted Within)

/-! ## The keys of the index files -/

/-- No piece has a slash. -/
theorem slash_notMem_of_mem_splitOn {cs piece : List Char} (h : piece ∈ cs.splitOn '/') :
    '/' ∉ piece := by
  induction cs generalizing piece with
  | nil =>
    rw [List.splitOn_nil, List.mem_singleton] at h
    rw [h]
    exact List.not_mem_nil
  | cons c cs ih =>
    rw [List.splitOn_cons_eq_if_modifyHead] at h
    split_ifs at h with hc
    · rcases List.mem_cons.mp h with rfl | h
      · exact List.not_mem_nil
      · exact ih h
    · obtain ⟨p, ps, hps⟩ := List.exists_cons_of_ne_nil (List.splitOn_ne_nil '/' cs)
      rw [hps, List.modifyHead_cons] at h
      rcases List.mem_cons.mp h with rfl | h
      · intro hmem
        rcases List.mem_cons.mp hmem with hslash | hmem
        · exact hc (beq_iff_eq.mpr hslash.symm)
        · exact ih (hps ▸ List.mem_cons_self) hmem
      · exact ih (hps ▸ List.mem_cons_of_mem _ h)

/-- An index file is at a key. -/
theorem exists_key {n path : String} (h : crateMetaFileRelPath n = some path) :
    ∃ k : Key, k.text = path := by
  refine ⟨⟨(pieces path).map String.ofList, ?_, fun name hname => ?_⟩, ?_⟩
  · simp [pieces]
  · obtain ⟨piece, hpiece, rfl⟩ := List.mem_map.mp hname
    obtain ⟨hne, hdot⟩ := pieces_of_relPath h piece hpiece
    have hslash := slash_notMem_of_mem_splitOn hpiece
    refine ⟨?_, by rwa [String.toList_ofList], ?_, ?_⟩ <;> intro e <;>
      have hlist := congrArg String.toList e <;> rw [String.toList_ofList] at hlist
    · exact hne hlist
    · exact hdot (hlist ▸ by decide)
    · exact hdot (hlist ▸ by decide)
  · unfold Key.text relative
    apply String.toList_inj.mp
    have hpieces : (pieces path).map (String.toList ∘ String.ofList) = pieces path :=
      (List.map_congr_left fun _ _ => String.toList_ofList).trans (List.map_id _)
    rw [String.toList_intercalate, List.map_map, hpieces]
    exact List.intercalate_splitOn '/'

/-- A key below another one has a text below the other's. -/
theorem ancestor_of_below {k k' : Key} (h : k.names <+: k'.names) (hne : k ≠ k') :
    Ancestor k.text k'.text := by
  obtain ⟨rest, hrest⟩ := h
  have hcons : rest ≠ [] := by
    rintro rfl
    exact hne (FsStorage.Key.ext ((List.append_nil _).symm.trans hrest))
  have hplain : ∀ name ∈ rest, Plain name := fun name hname =>
    k'.plain name (hrest ▸ List.mem_append_right _ hname)
  have hjoin : join k.text (relative rest) = k'.text := by
    rw [FsStorage.Key.text, FsStorage.Key.text, ← hrest]
    exact join_relative hcons k.plain hplain
  rw [join_of_relative (isAbsolute_relative hplain), FsStorage.Key.text,
    separator_relative k.nonempty k.plain] at hjoin
  refine ⟨(relative rest).toList, ?_⟩
  rw [← hjoin, String.toList_append, String.toList_append]
  rfl

/-- The keys of the index files. -/
def indexKeys : Family where
  Mem k := ∃ n, crateMetaFileRelPath n = some k.text
  apart k k' := by
    rintro ⟨n, hn⟩ ⟨n', hn'⟩ hprefix
    by_contra hne
    exact not_ancestor hn hn' (ancestor_of_below hprefix hne)

theorem exists_indexKey {name : String} {m : CrateMetaPath} (h : accessCrate name = .ok m) :
    ∃ k, indexKeys.Mem k ∧ k.text = m.relPath := by
  obtain ⟨-, hpath⟩ := accessCrate_eq_ok.mp h
  obtain ⟨k, hk⟩ := exists_key hpath
  exact ⟨k, ⟨m.key, by rw [hk, hpath]⟩, hk⟩

/-! ## The store -/

/-- `FsStorageProvider`; a put that fails has made `made` components of the directory. -/
def diskStorage (root : String) (io : Io) (made : ℕ) : MetadataStorage (Disk Bytes) where
  pullFile path fs :=
    (if io.pullFails then .error .serviceError else FsStorage.pullFile root fs path, fs)
  putFile path bytes fs :=
    if io.putFails then FsStorage.putFileFails root made fs path
    else FsStorage.putFile root fs path bytes

/-- The disk has the index files below its root, and is otherwise as it was. -/
structure OnDisk (root : String) (base : Location) (fs₀ fs : Disk Bytes) (files : Files) :
    Prop where
  mirrors : Mirrors indexKeys root base fs fun k => files k.text
  within : Within indexKeys base fs₀ fs

section Store

variable {root : String} {base : Location} {fs₀ fs : Disk Bytes} {files : Files} {io : Io}
  {made : ℕ}

/-- A disk with nothing where the index will be. -/
theorem onDisk_new (h : Rooted root fs₀ base)
    (hfree : ∀ k, indexKeys.Mem k → ∀ q, q <+: k.names → q ≠ [] → base ++ q ∉ fs₀.nodes) :
    OnDisk root base fs₀ fs₀ fun _ => none where
  mirrors := by
    have hmissing : ∀ k, indexKeys.Mem k → base ++ k.names ∉ fs₀.nodes := fun k hk =>
      hfree k hk k.names List.prefix_rfl k.nonempty
    refine ⟨h, fun k hk bytes => ?_, fun k hk hd => hmissing k hk hd.mem,
      fun k hk q hq _ hmem => ?_⟩
    · rw [AList.lookup_eq_none.mpr (hmissing k hk)]
      simp
    · rcases eq_or_ne q [] with rfl | hne
      · rw [List.append_nil]
        exact h.dir
      · exact absurd hmem (hfree k hk q hq hne)
  within := FsStorage.within_refl _ _ _

/-- **The disk answers as the files do.** -/
theorem sim_diskStorage :
    (diskStorage root io made).Sim (OnDisk root base fs₀) (fileStorage io) where
  pullFile name m hm fs files h := by
    obtain ⟨k, hk, hpath⟩ := exists_indexKey hm
    refine ⟨?_, h⟩
    simp only [diskStorage, fileStorage, FsIndex.pullFile, ← hpath]
    split_ifs
    · rfl
    · rw [h.mirrors.pullFile hk]
      cases files k.text <;> rfl
  putFile name m bytes hm fs files h := by
    obtain ⟨k, hk, hpath⟩ := exists_indexKey hm
    simp only [diskStorage, fileStorage, FsIndex.putFile, ← hpath]
    split_ifs
    · obtain ⟨fs', hput, hmirrors, hwithin⟩ := h.mirrors.putFileFails hk made
      rw [hput]
      exact ⟨rfl, hmirrors, h.within.trans hwithin⟩
    · obtain ⟨fs', hput, hmirrors, hwithin⟩ := h.mirrors.putFile hk bytes
      rw [hput]
      refine ⟨rfl, ?_, h.within.trans hwithin⟩
      have hsame : Function.update (fun k : Key => files k.text) k (some bytes) =
          fun k' => Function.update files k.text (some bytes) k'.text := by
        funext k'
        simp only [Function.update_apply, FsStorage.Key.text_injective.eq_iff]
      rwa [← hsame]

end Store

/-! ## Runs -/

section Runs

open Registry (Call Represents Stand serve serveStores)
open Routes (Above AuthProvider Backend Extractors Failure ServiceConfig)

variable {α ε : Type} (L : Libs) (sha256 : Bytes → Checksum) (cfg : ServiceConfig)
  (X : Extractors) (A : Server.Io → AuthProvider α ε) (root : String)
  (search : String → ℕ → Tx (Disk Bytes) IndexError SearchResults)
  (list : ListQuery → Tx (Disk Bytes) IndexError ListAll)

/-- The server with its index on a disk; with each request comes how much of the directory is made
by a put that fails. -/
def serveDisk (s : α × Disk Bytes × S3.Bucket) (c : Call × ℕ) :
    Except (Failure ε) Routes.Answer × (α × Disk Bytes × S3.Bucket) :=
  Routes.handle L sha256 cfg X (A c.1.io)
    (indexOver L (diskStorage root c.1.io.index c.2) search list)
    (Routes.s3 c.1.io c.1.newFails c.1.oldFails) c.1.headers c.1.route.route s

variable {L sha256 cfg X A root search list} {base : Location} {fs₀ : Disk Bytes}

/-- Over the disk a request does what it does over the files. -/
theorem sim_serveDisk (c : Call × ℕ) (searchFiles : String → ℕ → Tx Files IndexError SearchResults)
    (listFiles : ListQuery → Tx Files IndexError ListAll) :
    Tx.Sim (Backend.Beside (Above (OnDisk root base fs₀)))
      (fun s => serveDisk L sha256 cfg X A root search list s c)
      (fun t => serveStores L sha256 cfg X A searchFiles listFiles t c.1) := by
  unfold serveDisk serveStores
  rw [← indexOver_files]
  simp only [Backend.handle_eq]
  exact (Backend.sim_ofProviders (Routes.sim_indexOver sim_diskStorage _ _ _ _) _ _).handle _

variable (L sha256 root base fs₀) in
/-- The disk and the bucket of a registry. -/
def Keeps (s : α × Disk Bytes × S3.Bucket) (t : α × Registry × Unit) : Prop :=
  s.1 = t.1 ∧ ∃ files, OnDisk root base fs₀ s.2.1 files ∧ Represents L sha256 files s.2.2 t.2.1

theorem keeps_iff {s : α × Disk Bytes × S3.Bucket} {t : α × Registry × Unit} :
    Keeps L sha256 root base fs₀ s t ↔ ∃ u, Backend.Beside (Above (OnDisk root base fs₀)) s u ∧
      Backend.Beside (Stand L sha256) u t := by
  constructor
  · rintro ⟨hauth, files, hdisk, hreg⟩
    exact ⟨(s.1, files, s.2.2), ⟨rfl, hdisk, rfl⟩, hauth, hreg⟩
  · rintro ⟨⟨a, files, bucket⟩, ⟨hauth, hdisk, hbucket⟩, hauth', hreg⟩
    refine ⟨hauth.trans hauth', files, hdisk, ?_⟩
    rw [hbucket]
    exact hreg

/-- **The step.** -/
theorem keeps_serveDisk (s : α × Disk Bytes × S3.Bucket) (t : α × Registry × Unit) (c : Call × ℕ)
    (h : Keeps L sha256 root base fs₀ s t) (hclean : c.1.io.deleteNewFails = false) :
    (serveDisk L sha256 cfg X A root search list s c).1 = (serve L sha256 cfg X A t c.1).1 ∧
      Keeps L sha256 root base fs₀ (serveDisk L sha256 cfg X A root search list s c).2
        (serve L sha256 cfg X A t c.1).2 := by
  obtain ⟨u, hdisk, hreg⟩ := keeps_iff.mp h
  obtain ⟨hanswer, hdisk⟩ := sim_serveDisk c (fun _ _ => Tx.fail .serviceError)
    (fun _ => Tx.fail .serviceError) s u hdisk
  obtain ⟨hanswer', hreg⟩ := Registry.sim_serve L sha256 cfg X A _ _ u t c.1 hreg hclean
  exact ⟨hanswer.trans hanswer', keeps_iff.mpr ⟨_, hdisk, hreg⟩⟩

/-- **A server with its index on a disk is a registry.** Where nothing is in the way of the index it
answers every run of requests on crates as the registry does, whatever fails but for a clean-up; the
disk has the files of the registry, and nothing else on it has changed. -/
theorem disk_refines (L : Libs) (sha256 : Bytes → Checksum) (cfg : ServiceConfig) (X : Extractors)
    (A : Server.Io → AuthProvider α ε) (root : String)
    (search : String → ℕ → Tx (Disk Bytes) IndexError SearchResults)
    (list : ListQuery → Tx (Disk Bytes) IndexError ListAll) (a : α) (base : Location)
    (fs : Disk Bytes) (hroot : Rooted root fs base)
    (hfree : ∀ k, indexKeys.Mem k → ∀ q, q <+: k.names → q ≠ [] → base ++ q ∉ fs.nodes)
    (calls : List (Call × ℕ)) (hclean : ∀ c ∈ calls, c.1.io.deleteNewFails = false) :
    let disk := serveDisk L sha256 cfg X A root search list
    let registry := fun t (c : Call × ℕ) => serve L sha256 cfg X A t c.1
    let start := (a, fs, fun _ => none)
    Run.outputs disk start calls = Run.outputs registry (a, Registry.empty, ()) calls ∧
      (Run.final disk start calls).1 = (Run.final registry (a, Registry.empty, ()) calls).1 ∧
      ∃ files, OnDisk root base fs (Run.final disk start calls).2.1 files ∧
        Represents L sha256 files (Run.final disk start calls).2.2
          (Run.final registry (a, Registry.empty, ()) calls).2.1 := by
  intro disk registry start
  have hstart : Keeps L sha256 root base fs start (a, Registry.empty, ()) :=
    ⟨rfl, fun _ => none, onDisk_new hroot hfree, Registry.represents_empty⟩
  have halong : Run.Along disk (fun _ c => c.1.io.deleteNewFails = false) start calls :=
    Run.along_iff.mpr fun pre c post e => hclean c (by rw [e]; simp)
  have hstep : ∀ s t c, Keeps L sha256 root base fs s t → c.1.io.deleteNewFails = false →
      (disk s c).1 = (registry t c).1 ∧ Keeps L sha256 root base fs (disk s c).2 (registry t c).2 :=
    keeps_serveDisk
  refine ⟨Run.outputs_eq_of_sim hstep halong hstart, ?_⟩
  exact Run.final_of_sim (fun s t c h hc => (hstep s t c h hc).2) halong hstart

end Runs

/-- A publish of `Foo` that fails after the first directory is made, one that goes well, and a
download. -/
noncomputable def fooDiskCalls : List (Registry.Call × ℕ) := Registry.fooCalls.map (·, 1)

theorem disk_refines_foo :
    let disk := serveDisk Libs.canonical abcHash Routes.openConfig Routes.fooExtractors
      (fun io => Routes.fsAuth FsAuth.testHash io.auth) "/" (fun _ _ => Tx.fail .serviceError)
      (fun _ => Tx.fail .serviceError)
    let registry := fun t (c : Registry.Call × ℕ) => Registry.serve Libs.canonical abcHash
      Routes.openConfig Routes.fooExtractors (fun io => Routes.fsAuth FsAuth.testHash io.auth) t c.1
    let a := (Server.registered ∅).auth
    Run.outputs disk (a, Disk.bare, fun _ => none) fooDiskCalls =
      Run.outputs registry (a, Registry.empty, ()) fooDiskCalls :=
  (disk_refines Libs.canonical abcHash Routes.openConfig Routes.fooExtractors
    (fun io => Routes.fsAuth FsAuth.testHash io.auth) "/" (fun _ _ => Tx.fail .serviceError)
    (fun _ => Tx.fail .serviceError) (Server.registered ∅).auth [] Disk.bare ⟨by decide, rfl⟩
    (fun _ _ _ _ hq hmem => hq (by simpa [Disk.bare, AList.mem_keys] using hmem)) fooDiskCalls
    (by simp [fooDiskCalls, Registry.fooCalls])).1

end FsIndex

end Freighter
