import Freighter.FsIndex.Origin
import Freighter.Server.Ownership
import Freighter.Server.Unauthorized

/-!
# The spelling of a name

The index looks a crate up by its lower-case name, the bucket has its tarball under the name as it
was published. A run of successful publishes, from empty stores.

* `Kept`: what the stores have after the run, with **`kept_of_run`**;
* `Agrees`: what the index confirms is there to download, and `serve_crate` answers with it;
* **`agrees_iff_spelled`**: so it is for the names that are spelled as they were published.
-/

namespace Freighter

namespace Server

open FsIndex (accessCrate contentsOf keyPath existsAnswer pullFile)
open Routes (AuthProvider ServiceConfig Extractors Failure Granted serveCrate fsIndex s3)

/-- A publish request that is authorised, with what the world does during it. -/
structure Upload where
  io : Io
  json : Publish
  crateBytes : Bytes

variable (L : Libs) (sha256 : Bytes → Checksum)

def uploadStep (s : Stores) (r : Upload) : Response CompletedPublication × Stores :=
  publishAuthorized L sha256 r.io s r.json r.crateBytes

/-- The request is answered with success. -/
def Succeeds (s : Stores) (r : Upload) : Prop := ∃ c, (uploadStep L sha256 s r).1 = .ok c

/-- Stores with nothing in them, and any tokens and owners. -/
def emptyStores (auth : FsAuth.FsAuthProvider) : Stores := ⟨auth, fun _ => none, fun _ => none⟩

/-- The path of the tarball of a request. -/
def Upload.path (r : Upload) : String :=
  S3.newPath r.json.name r.json.vers.display (sha256 r.crateBytes)

/-- The request publishes the version of the crate, whatever the case of the letters of its name. -/
def Upload.Releases (r : Upload) (name : String) (version : Version) : Prop :=
  toAsciiLowercase r.json.name = toAsciiLowercase name ∧ r.json.vers = version

/-! ## What a run leaves -/

/-- What the stores have when these requests have succeeded. -/
structure Kept (s : Stores) (rs : List Upload) : Prop where
  allowed : ∀ r ∈ rs, ∃ m, accessCrate r.json.name = .ok m
  entry : ∀ r ∈ rs, ∃ c, contentsOf L s.files (keyPath (toAsciiLowercase r.json.name)) = some c ∧
    FsIndex.release r.json (sha256 r.crateBytes) ∈ c.1
  origin : ∀ path c, contentsOf L s.files path = some c → ∀ v ∈ c.1,
    ∃ r ∈ rs, keyPath (toAsciiLowercase r.json.name) = path ∧
      v = FsIndex.release r.json (sha256 r.crateBytes)
  unique : ∀ r ∈ rs, ∀ r' ∈ rs, r'.Releases r.json.name r.json.vers → r' = r
  object : ∀ r ∈ rs, s.bucket (r.path sha256) = some r.crateBytes
  stored : ∀ path d, s.bucket path = some d →
    ∃ r ∈ rs, path = r.path sha256 ∧ d = r.crateBytes

variable {L sha256} {s : Stores} {r r' : Upload} {rs : List Upload} {name : String}
  {version : Version}

theorem publishAuthorized_ok (h : Succeeds L sha256 s r) :
    FsIndex.Accepts L r.io.index s.files r.json ∧
      FsIndex.Effect L s.files (uploadStep L sha256 s r).2.files
        (.publish r.json (sha256 r.crateBytes)) ∧
      (uploadStep L sha256 s r).2.bucket =
        Function.update s.bucket (r.path sha256) (some r.crateBytes) := by
  obtain ⟨c, hc⟩ := h
  have heffect := (publishAuthorized_effect L sha256 r.io s r.json r.crateBytes).2
  by_cases hacc : FsIndex.Accepts L r.io.index s.files r.json
  · obtain ⟨path, data, hp⟩ := publishAuthorized_of_accepts sha256 r.crateBytes hacc
    unfold uploadStep at hc ⊢
    refine ⟨hacc, ?_, ?_⟩
    · rcases heffect with ⟨⟨e, he⟩, -⟩ | heffect
      · cases hc.symm.trans he
      · exact heffect
    · rw [hp] at hc ⊢
      split_ifs at hc ⊢
      rfl
  · obtain ⟨e, he⟩ := publishAuthorized_of_not_accepts sha256 r.crateBytes hacc
    unfold uploadStep at hc
    rw [he] at hc
    cases hc

/-- Two requests with one path publish one version under one name. -/
theorem Kept.path_inj (h : Kept L sha256 s rs) (hr : r ∈ rs) {m : FsIndex.CrateMetaPath}
    (hm : accessCrate name = .ok m) {c : Checksum}
    (heq : S3.newPath name version.display c = r.path sha256) :
    r.json.name = name ∧ r.json.vers = version := by
  obtain ⟨m', hm'⟩ := h.allowed r hr
  obtain ⟨hname, hvers⟩ := S3.newPath_inj (FsIndex.dot_notMem_of_accessCrate hm)
    (FsIndex.dot_notMem_of_accessCrate hm') heq
  exact ⟨hname.symm, hvers.symm⟩

/-- The name under which a release is asked for is allowed as well. -/
theorem Kept.allowed_of_releases (h : Kept L sha256 s rs) (hr : r ∈ rs)
    (hreleases : r.Releases name version) : ∃ m, accessCrate name = .ok m := by
  obtain ⟨m, hm⟩ := h.allowed r hr
  refine ⟨m, ?_⟩
  rw [← hm]
  unfold FsIndex.accessCrate
  rw [hreleases.1]

theorem kept_empty (auth : FsAuth.FsAuthProvider) : Kept L sha256 (emptyStores auth) [] where
  allowed _ hr := by cases hr
  entry _ hr := by cases hr
  origin _ _ hc := by cases hc
  unique _ hr := by cases hr
  object _ hr := by cases hr
  stored _ _ hd := by cases hd

/-- A request that succeeds releases a version that no request before it has released. -/
theorem Kept.fresh (h : Kept L sha256 s rs) (hs : Succeeds L sha256 s r) (hr : r' ∈ rs) :
    ¬ r'.Releases r.json.name r.json.vers := by
  rintro ⟨hname, hvers⟩
  obtain ⟨-, ⟨-, entries, hbefore, hnew, -⟩, -⟩ := publishAuthorized_ok hs
  obtain ⟨c, hc, hentry⟩ := h.entry r' hr
  rw [hname] at hc
  rw [← FsIndex.contentsOf_of_hasEntries hbefore hc] at hnew
  exact hnew _ hentry hvers

/-- The entries that there were are still there. -/
theorem Kept.entry_upload (h : Kept L sha256 s rs) (hs : Succeeds L sha256 s r) :
    ∀ r' ∈ rs ++ [r], ∃ c, contentsOf L (uploadStep L sha256 s r).2.files
        (keyPath (toAsciiLowercase r'.json.name)) = some c ∧
      FsIndex.release r'.json (sha256 r'.crateBytes) ∈ c.1 := by
  obtain ⟨-, ⟨hframe, entries, hbefore, -, hafter⟩, -⟩ := publishAuthorized_ok hs
  refine List.forall_mem_append.mpr ⟨fun r' hr' => ?_, List.forall_mem_singleton.mpr
    ⟨_, hafter, List.mem_append_right _ (List.mem_singleton_self _)⟩⟩
  obtain ⟨c, hc, hentry⟩ := h.entry r' hr'
  by_cases hpath : keyPath (toAsciiLowercase r'.json.name) =
      FsIndex.IndexOp.relPath (.publish r.json (sha256 r.crateBytes))
  · rw [hpath] at hc ⊢
    rw [FsIndex.contentsOf_of_hasEntries hbefore hc] at hentry
    exact ⟨_, hafter, List.mem_append_left _ hentry⟩
  · exact ⟨c, (FsIndex.contentsOf_congr (hframe _ hpath)).trans hc, hentry⟩

/-- The only new entry is that of the request. -/
theorem Kept.origin_upload (h : Kept L sha256 s rs) (hs : Succeeds L sha256 s r) (path : String)
    {c : FsIndex.Contents} (hc : contentsOf L (uploadStep L sha256 s r).2.files path = some c)
    {v : CrateVersion} (hv : v ∈ c.1) :
    ∃ r' ∈ rs ++ [r], keyPath (toAsciiLowercase r'.json.name) = path ∧
      v = FsIndex.release r'.json (sha256 r'.crateBytes) := by
  obtain ⟨-, ⟨hframe, entries, hbefore, -, hafter⟩, -⟩ := publishAuthorized_ok hs
  by_cases hpath : path = FsIndex.IndexOp.relPath (.publish r.json (sha256 r.crateBytes))
  · subst hpath
    cases hafter.symm.trans hc
    rcases List.mem_append.mp hv with hv | hv
    · rcases hbefore with ⟨-, rfl⟩ | ⟨q, hq⟩
      · cases hv
      · obtain ⟨r', hr', hsame⟩ := h.origin _ _ hq v hv
        exact ⟨r', List.mem_append_left _ hr', hsame⟩
    · exact ⟨r, List.mem_append_right _ (List.mem_singleton_self r), rfl,
        List.mem_singleton.mp hv⟩
  · rw [FsIndex.contentsOf_congr (hframe _ hpath)] at hc
    obtain ⟨r', hr', hsame⟩ := h.origin path c hc v hv
    exact ⟨r', List.mem_append_left _ hr', hsame⟩

/-- **A request that succeeds** leaves what there was, and its entry and its tarball. -/
theorem Kept.upload (h : Kept L sha256 s rs) (hs : Succeeds L sha256 s r) :
    Kept L sha256 (uploadStep L sha256 s r).2 (rs ++ [r]) := by
  obtain ⟨⟨m, hm, -⟩, -, hbucket⟩ := publishAuthorized_ok hs
  have hfresh : ∀ r' ∈ rs, ¬ r'.Releases r.json.name r.json.vers := fun r' hr' => h.fresh hs hr'
  refine ⟨?_, h.entry_upload hs, fun path c hc v hv => h.origin_upload hs path hc hv, ?_, ?_,
    fun path d hd => ?_⟩
  · exact List.forall_mem_append.mpr ⟨h.allowed, List.forall_mem_singleton.mpr ⟨m, hm⟩⟩
  · refine List.forall_mem_append.mpr ⟨fun r₁ hr₁ => List.forall_mem_append.mpr
      ⟨h.unique r₁ hr₁, List.forall_mem_singleton.mpr fun hsame => ?_⟩,
      List.forall_mem_singleton.mpr (List.forall_mem_append.mpr
        ⟨fun r₂ hr₂ hsame => absurd hsame (hfresh r₂ hr₂),
          List.forall_mem_singleton.mpr fun _ => rfl⟩)⟩
    exact absurd ⟨hsame.1.symm, hsame.2.symm⟩ (hfresh r₁ hr₁)
  · rw [hbucket]
    refine List.forall_mem_append.mpr ⟨fun r' hr' => ?_,
      List.forall_mem_singleton.mpr (Function.update_self ..)⟩
    have hpath : r'.path sha256 ≠ r.path sha256 := by
      intro heq
      obtain ⟨hname, hvers⟩ := h.path_inj hr' hm heq.symm
      exact hfresh r' hr' ⟨congrArg toAsciiLowercase hname, hvers⟩
    exact (Function.update_of_ne hpath ..).trans (h.object r' hr')
  · rw [hbucket] at hd
    by_cases hpath : path = r.path sha256
    · subst hpath
      rw [Function.update_self] at hd
      cases hd
      exact ⟨r, List.mem_append_right _ (List.mem_singleton_self r), rfl, rfl⟩
    · rw [Function.update_of_ne hpath] at hd
      obtain ⟨r', hr', hsame⟩ := h.stored path d hd
      exact ⟨r', List.mem_append_left _ hr', hsame⟩

/-- **What a run of successful requests leaves.** -/
theorem kept_of_run (auth : FsAuth.FsAuthProvider)
    (h : Run.Along (uploadStep L sha256) (Succeeds L sha256) (emptyStores auth) rs) :
    Kept L sha256 (Run.final (uploadStep L sha256) (emptyStores auth) rs) rs :=
  h.history (I := Kept L sha256) (fun _ _ _ hkept hs => hkept.upload hs) (kept_empty auth)

/-! ## What the index confirms -/

theorem pullCrate_ok {b : S3.Bucket} {version : String} {c : Checksum} {d : Bytes}
    (hold : b (S3.oldPath name version) = none) :
    S3.pullCrate false false b name version c = .ok d ↔
      b (S3.newPath name version c) = some d := by
  unfold S3.pullCrate S3.constructPaths S3.pullObject
  simp only [hold, Bool.false_eq_true, if_false]
  cases b (S3.newPath name version c) <;> simp

/-- There are no tarballs under legacy paths. -/
theorem Kept.oldPath (h : Kept L sha256 s rs) (name version : String) :
    s.bucket (S3.oldPath name version) = none := by
  refine Option.eq_none_iff_forall_ne_some.mpr fun d hd => ?_
  obtain ⟨r, -, hpath, -⟩ := h.stored _ d hd
  exact S3.oldPath_ne_newPath _ _ _ _ _ hpath

/-- The index confirms what was released, with the checksum of the request. -/
theorem Kept.confirm (h : Kept L sha256 s rs) (hr : r ∈ rs) (hreleases : r.Releases name version) :
    ∃ e, FsIndex.confirmExistence L {} s.files name version = .ok e := by
  obtain ⟨m, hname⟩ := h.allowed_of_releases hr hreleases
  obtain ⟨c, hc, hentry⟩ := h.entry r hr
  obtain ⟨e, he⟩ := FsIndex.existsAnswer_of_mem hc hentry hreleases.2
  refine ⟨e, ?_⟩
  unfold FsIndex.confirmExistence
  rw [hname]
  simp only
  rwa [FsIndex.accessCrate_relPath hname, ← hreleases.1]

/-- What the index confirms was released, and the checksum is of the tarball. -/
theorem Kept.confirmed (h : Kept L sha256 s rs) {e : CrateVersionExists}
    (he : FsIndex.confirmExistence L {} s.files name version = .ok e) :
    (∃ m, accessCrate name = .ok m) ∧
      ∃ r ∈ rs, r.Releases name version ∧ e.tarballChecksum = sha256 r.crateBytes := by
  unfold FsIndex.confirmExistence at he
  cases hm : accessCrate name with
  | error e' =>
    rw [hm] at he
    cases he
  | ok m =>
    rw [hm] at he
    obtain ⟨c, v, hc, hv, hvers, hcksum⟩ := FsIndex.existsAnswer_ok he
    obtain ⟨r, hr, hpath, rfl⟩ := h.origin _ c hc v hv
    obtain ⟨m', hm'⟩ := h.allowed r hr
    have hsame : m'.relPath = m.relPath := (FsIndex.accessCrate_relPath hm').trans hpath
    have hkey := congrArg FsIndex.CrateMetaPath.key (FsIndex.relPath_inj hm' hm hsame)
    rw [(FsIndex.accessCrate_eq_ok.mp hm').1, (FsIndex.accessCrate_eq_ok.mp hm).1] at hkey
    exact ⟨⟨m, rfl⟩, r, hr, ⟨hkey, hvers⟩, hcksum⟩

/-- **The tarball is found under the name it was published with, and no other.** -/
theorem Kept.pull_iff (h : Kept L sha256 s rs) (hr : r ∈ rs) (hreleases : r.Releases name version)
    (d : Bytes) : S3.pullCrate false false s.bucket name version.display (sha256 r.crateBytes) =
      .ok d ↔ r.json.name = name ∧ d = r.crateBytes := by
  obtain ⟨m, hname⟩ := h.allowed_of_releases hr hreleases
  obtain ⟨hlower, rfl⟩ := hreleases
  rw [pullCrate_ok (h.oldPath _ _)]
  constructor
  · intro hd
    obtain ⟨r', hr', hpath, rfl⟩ := h.stored _ d hd
    obtain ⟨hspelled, hvers⟩ := h.path_inj hr' hname hpath
    have hsame := h.unique r hr r' hr'
      ⟨(congrArg toAsciiLowercase hspelled).trans hlower.symm, hvers⟩
    subst hsame
    exact ⟨hspelled, rfl⟩
  · rintro ⟨rfl, rfl⟩
    exact h.object r hr

/-! ## Downloads -/

section Serve

variable {α ι σ ε : Type} {cfg : ServiceConfig} {X : Extractors} {A : AuthProvider α ε}
  {I : Routes.IndexProvider ι} {S : Routes.StorageProvider σ} {headers : HeaderMap}
  {path : String} {a : α}

variable {β : Type} {i j : ι} {b c : σ}

theorem onIndex_eq {x : Tx ι IndexError β} {r : Except IndexError β} (h : x i = (r, j)) :
    (Routes.onIndex x : Routes.Handler α ι σ ε β) (a, i, b) =
      (r.mapError fun e => .api (.index e), a, j, b) := by
  unfold Routes.onIndex Tx.onSnd Tx.onFst
  simp only [Tx.mapError_apply, h]

theorem onStorage_eq {x : Tx σ StorageError β} {r : Except StorageError β} (h : x b = (r, c)) :
    (Routes.onStorage x : Routes.Handler α ι σ ε β) (a, i, b) =
      (r.mapError .storage, a, i, c) := by
  unfold Routes.onStorage Tx.onSnd
  simp only [Tx.mapError_apply, h]

/-- A request that is granted gets to the index. -/
theorem serveCrate_of_granted (hpath : X.nameAndVersion path = .ok (name, version))
    (hgranted : cfg.authRequired = true → Granted L X A headers a (.serveCrate path)) :
    ∃ a', serveCrate cfg X A I S headers path (a, i, b) =
      (Routes.onIndex (I.confirmExistence name version) >>= fun e =>
        Routes.onStorage (S.pullCrate name version.display e.tarballChecksum)) (a', i, b) := by
  unfold serveCrate
  rw [hpath]
  simp only [Routes.extract, Except.mapError, Tx.lift_ok_bind]
  by_cases hreq : cfg.authRequired = true
  · obtain ⟨token, htoken, c, hc, hok⟩ := hgranted hreq
    simp only [Routes.check, hpath, Except.toOption, Option.map_some, Option.mem_some_iff] at hc
    subst hc
    refine ⟨(A.authCrateDownload token name a).2, Tx.bind_of_ok (a := ()) ?_⟩
    unfold Routes.whenAuthRequired Routes.token
    rw [if_pos hreq, htoken]
    simp only [Tx.lift_ok_bind]
    unfold Routes.onAuth Tx.onFst
    simp only [Tx.mapError_apply, hok, Except.mapError]
  · refine ⟨a, Tx.bind_of_ok (a := ()) ?_⟩
    unfold Routes.whenAuthRequired
    rw [if_neg hreq]
    rfl

end Serve

variable (L) in
/-- **The index and the bucket agree on a version**: when the index confirms it, the bucket has the
tarball that was published, and `serve_crate` answers a request that is granted with data exactly
when the index confirms the version. -/
structure Agrees (s : Stores) (rs : List Upload) (name : String) (version : Version) : Prop where
  found : ∀ e, FsIndex.confirmExistence L {} s.files name version = .ok e →
    ∃ r ∈ rs, r.Releases name version ∧
      S3.pullCrate false false s.bucket name version.display e.tarballChecksum = .ok r.crateBytes
  served : ∀ (α ε : Type) (A : AuthProvider α ε) (cfg : ServiceConfig) (X : Extractors)
    (headers : HeaderMap) (path : String) (a : α)
    (searchFiles : String → ℕ → Tx FsIndex.Files IndexError SearchResults)
    (listFiles : ListQuery → Tx FsIndex.Files IndexError ListAll),
    X.nameAndVersion path = .ok (name, version) →
    ((∃ d, (serveCrate cfg X A (fsIndex L {} searchFiles listFiles) (s3 {} false false) headers path
        (a, s.files, s.bucket)).1 = .ok d) ↔
      (cfg.authRequired = true → Granted L X A headers a (.serveCrate path)) ∧
        ∃ e, FsIndex.confirmExistence L {} s.files name version = .ok e)

/-- The requests that released the version had this spelling of the name. -/
def Spelled (rs : List Upload) (name : String) (version : Version) : Prop :=
  ∀ r ∈ rs, r.Releases name version → r.json.name = name

theorem Kept.found (h : Kept L sha256 s rs) (hspelled : Spelled rs name version)
    {e : CrateVersionExists}
    (he : FsIndex.confirmExistence L {} s.files name version = .ok e) :
    ∃ r ∈ rs, r.Releases name version ∧
      S3.pullCrate false false s.bucket name version.display e.tarballChecksum =
        .ok r.crateBytes := by
  obtain ⟨-, r, hr, hreleases, hcksum⟩ := h.confirmed he
  refine ⟨r, hr, hreleases, ?_⟩
  rw [hcksum]
  exact (h.pull_iff hr hreleases _).mpr ⟨hspelled r hr hreleases, rfl⟩

theorem Kept.agrees (h : Kept L sha256 s rs) (hspelled : Spelled rs name version) :
    Agrees L s rs name version := by
  refine ⟨fun e he => h.found hspelled he, fun α ε A cfg X headers path a searchFiles listFiles
    hpath => ?_⟩
  by_cases hgranted : cfg.authRequired = true → Granted L X A headers a (.serveCrate path)
  · obtain ⟨a', hserve⟩ := serveCrate_of_granted (I := fsIndex L {} searchFiles listFiles)
      (S := s3 {} false false) (i := s.files) (b := s.bucket) hpath hgranted
    have hindex := onIndex_eq (α := α) (σ := S3.Bucket) (ε := ε) (a := a') (b := s.bucket)
      (x := (fsIndex L {} searchFiles listFiles).confirmExistence name version) (i := s.files) rfl
    rw [hserve]
    cases he : FsIndex.confirmExistence L {} s.files name version with
    | error e =>
      rw [he] at hindex
      refine ⟨fun ⟨d, hd⟩ => ?_, fun ⟨_, e', he'⟩ => by cases he'⟩
      rw [Tx.bind_of_error hindex] at hd
      cases hd
    | ok e =>
      rw [he] at hindex
      obtain ⟨r, -, -, hpull⟩ := h.found hspelled he
      refine ⟨fun _ => ⟨hgranted, e, rfl⟩, fun _ => ⟨r.crateBytes, ?_⟩⟩
      rw [Tx.bind_of_ok hindex, onStorage_eq (r := .ok r.crateBytes) (c := s.bucket)]
      · rfl
      · exact Prod.ext hpull rfl
  · simp only [not_forall] at hgranted
    obtain ⟨hreq, hnot⟩ := hgranted
    obtain ⟨e, a', hstops⟩ := Routes.stops_serveCrate (I := fsIndex L {} searchFiles listFiles)
      (S := s3 {} false false) hreq hnot
    refine ⟨fun ⟨d, hd⟩ => ?_, fun hboth => absurd (hboth.1 hreq) hnot⟩
    rw [hstops] at hd
    cases hd

theorem Kept.spelled (h : Kept L sha256 s rs) (hagrees : Agrees L s rs name version) :
    Spelled rs name version := by
  intro r hr hreleases
  obtain ⟨e, he⟩ := h.confirm hr hreleases
  obtain ⟨r', hr', hreleases', hpull⟩ := hagrees.found e he
  obtain ⟨-, r₁, hr₁, hreleases₁, hcksum⟩ := h.confirmed he
  have hsame : ∀ r₂ ∈ rs, r₂.Releases name version → r₂ = r := fun r₂ hr₂ h₂ =>
    h.unique r hr r₂ hr₂ ⟨h₂.1.trans hreleases.1.symm, h₂.2.trans hreleases.2.symm⟩
  rw [hcksum, hsame r₁ hr₁ hreleases₁] at hpull
  exact ((h.pull_iff hr hreleases _).mp hpull).1

/-- **The index and the bucket agree on the names that are spelled as they were published.** After
any run of successful publishes they agree on a version of a crate exactly when the request that
released it had this spelling of the name. -/
theorem agrees_iff_spelled (L : Libs) (sha256 : Bytes → Checksum) (auth : FsAuth.FsAuthProvider)
    (rs : List Upload)
    (h : Run.Along (uploadStep L sha256) (Succeeds L sha256) (emptyStores auth) rs)
    (name : String) (version : Version) :
    Agrees L (Run.final (uploadStep L sha256) (emptyStores auth) rs) rs name version ↔
      Spelled rs name version :=
  ⟨(kept_of_run auth h).spelled, (kept_of_run auth h).agrees⟩

/-! ## `Foo` and `foo` -/

/-- `Foo` is published with the tarball "abc". -/
def uploadFoo : Upload := ⟨{}, capitalFoo, [97, 98, 99]⟩

theorem run_uploadFoo (auth : FsAuth.FsAuthProvider) :
    Run.Along (uploadStep Libs.canonical abcHash) (Succeeds Libs.canonical abcHash)
      (emptyStores auth) [uploadFoo] := by
  have hacc : FsIndex.Accepts Libs.canonical uploadFoo.io.index (emptyStores auth).files
      uploadFoo.json := ⟨⟨"foo", "index/3/f/foo"⟩, by decide, Or.inl rfl⟩
  obtain ⟨path, data, hp⟩ := publishAuthorized_of_accepts abcHash uploadFoo.crateBytes hacc
  refine ⟨⟨.noWarnings, ?_⟩, trivial⟩
  unfold uploadStep
  rw [hp]
  rfl

theorem agrees_iff_spelled_foo :
    Agrees Libs.canonical (Run.final (uploadStep Libs.canonical abcHash)
        (emptyStores (registered ∅).auth) [uploadFoo]) [uploadFoo] "Foo" (Version.new 0 0 0) ↔
      Spelled [uploadFoo] "Foo" (Version.new 0 0 0) :=
  agrees_iff_spelled Libs.canonical abcHash (registered ∅).auth [uploadFoo] (run_uploadFoo _)
    "Foo" (Version.new 0 0 0)

/-- The index confirms `foo`, and the bucket does not have it. -/
theorem lowercase_foo_missing :
    Run.Along (uploadStep Libs.canonical abcHash) (Succeeds Libs.canonical abcHash)
        (emptyStores (registered ∅).auth) [uploadFoo] ∧
      ¬ Agrees Libs.canonical (Run.final (uploadStep Libs.canonical abcHash)
        (emptyStores (registered ∅).auth) [uploadFoo]) [uploadFoo] "foo" (Version.new 0 0 0) := by
  refine ⟨run_uploadFoo _, fun hagrees => ?_⟩
  have hspelled := (kept_of_run _ (run_uploadFoo _)).spelled hagrees
  exact absurd (hspelled uploadFoo (List.mem_singleton_self _) ⟨by decide, rfl⟩) (by decide)

end Server

end Freighter
