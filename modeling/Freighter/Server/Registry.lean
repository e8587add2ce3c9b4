import Freighter.Server.Routes

/-!
# The registry that the stores make up

The routes on a crate need four things of the stores: its entries, a tarball, a publish and a flag.

* `Backend`, `Backend.handle`: the routes over these four; **`handle_eq`**: so are the handlers over
  an index and a storage provider; **`Backend.Sim.handle`**: backends that answer alike make servers
  that do.
* `Registry`: a map from crates to their releases, each an entry with its tarball; `sparseEntry`,
  `download`, `publish`, `yank`: what a registry is for.

`Faults` is what fails during a request.
-/

namespace Freighter

namespace Routes

/-! ## The routes on a crate -/

/-- The routes but for the listings. -/
inductive CrateRoute where
  | config
  | getSparseMeta (path : String)
  | serveCrate (path : String)
  | publish (body : Bytes)
  | yank (path : String)
  | unyank (path : String)

def CrateRoute.route : CrateRoute → Route
  | .config => .config
  | .getSparseMeta path => .getSparseMeta path
  | .serveCrate path => .serveCrate path
  | .publish body => .publish body
  | .yank path => .yank path
  | .unyank path => .unyank path

/-- What these routes need of the stores. -/
structure Backend (ι σ ε : Type) where
  sparseEntry : String → Tx (ι × σ) (Failure ε) (List CrateVersion)
  download : String → Version → Tx (ι × σ) (Failure ε) Bytes
  publish : Publish → Bytes → Tx (ι × σ) (Failure ε) CompletedPublication
  yank : Bool → String → Version → Tx (ι × σ) (Failure ε) Unit

section Backend

variable {α ι σ ε : Type} (L : Libs) (sha256 : Bytes → Checksum) (cfg : ServiceConfig)
  (X : Extractors) (A : AuthProvider α ε) (B : Backend ι σ ε) (headers : HeaderMap)

namespace Backend

def getSparseMeta (path : String) : Handler α ι σ ε (List CrateVersion) := do
  let crateIndexPath ← Tx.lift (extract (X.crateIndexPath path))
  match rsplitOnce crateIndexPath with
  | none => Tx.fail (.status 400 "")
  | some (_, crateName) => do
    whenAuthRequired cfg do
      let token ← Tx.lift (token A headers (.status 401 ""))
      onAuth (A.authIndexFetch token crateName)
    let entries ← Tx.onSnd (B.sparseEntry crateName)
    Tx.answer (entries.map ensureCorrectMetadata)

def serveCrate (path : String) : Handler α ι σ ε Bytes := do
  let (name, version) ← Tx.lift (extract (X.nameAndVersion path))
  whenAuthRequired cfg do
    let token ← Tx.lift (token A headers (.status 401 ""))
    onAuth (A.authCrateDownload token name)
  Tx.onSnd (B.download name version)

def publishCrate (body : Bytes) : Handler α ι σ ε CompletedPublication :=
  if cfg.crateSizeLimit < body.length then
    Tx.fail (.status 413 "Failed to buffer the request body: length limit exceeded")
  else do
    let token ← Tx.lift (token A headers (.status 401 "Auth token missing"))
    let (json, crateBytes) ← Tx.lift (decodeBody L body)
    onAuth (A.publish token json.name)
    Tx.onSnd (B.publish json crateBytes)

def yankCrate (flag : Bool) (path : String) : Handler α ι σ ε Unit := do
  let (name, version) ← Tx.lift (extract (X.nameAndVersion path))
  let token ← Tx.lift (token A headers (.status 401 "Auth token missing"))
  onAuth (A.authYank token name)
  Tx.onSnd (B.yank flag name version)

/-- The handler of a request, over a backend. -/
def handle : CrateRoute → Handler α ι σ ε Answer
  | .config => do return .config (← config cfg A headers)
  | .getSparseMeta path => do return .sparse (← B.getSparseMeta cfg X A headers path)
  | .serveCrate path => do return .crate (← B.serveCrate cfg X A headers path)
  | .publish body => do return .published (← B.publishCrate L cfg A headers body)
  | .yank path => do
    B.yankCrate X A headers true path
    return .yanked
  | .unyank path => do
    B.yankCrate X A headers false path
    return .yanked

/-- Two providers as a backend. -/
def ofProviders (I : IndexProvider ι) (S : StorageProvider σ) : Backend ι σ ε where
  sparseEntry name := ((I.getSparseEntry name).mapError fun e => .api (.index e)).onFst
  download name version := do
    let expectedCrate ←
      ((I.confirmExistence name version).mapError fun e => .api (.index e)).onFst
    ((S.pullCrate name version.display expectedCrate.tarballChecksum).mapError .storage).onSnd
  publish json crateBytes := fun w =>
    let out := (publishStores sha256 I S json crateBytes : Handler Unit ι σ ε _) ((), w)
    (out.1, out.2.2)
  yank flag name version :=
    match flag with
    | true => ((I.yankCrate name version).mapError fun e => .api (.index e)).onFst
    | false => ((I.unyankCrate name version).mapError fun e => .api (.index e)).onFst

variable {L sha256 cfg X A headers} {I : IndexProvider ι} {S : StorageProvider σ}

theorem onSnd_publish (json : Publish) (crateBytes : Bytes) :
    (Tx.onSnd ((ofProviders sha256 I S).publish json crateBytes) : Handler α ι σ ε _) =
      publishStores sha256 I S json crateBytes := by
  funext ⟨a, i, s⟩
  simp only [Tx.onSnd, ofProviders, publishStores]
  rcases I.publish json (sha256 crateBytes) (storeCrate sha256 S json crateBytes) (i, false, s) with
    ⟨e | res, i', storedCrate, s'⟩ <;> cases storedCrate <;> rfl

variable (sha256) in
theorem serveCrate_eq (path : String) : Routes.serveCrate cfg X A I S headers path =
    (ofProviders sha256 I S).serveCrate cfg X A headers path := by
  unfold Routes.serveCrate serveCrate
  simp only [ofProviders, Tx.onSnd_bind]
  rfl

theorem publishCrate_eq (body : Bytes) :
    Routes.publish L sha256 cfg A I S headers body =
      (ofProviders sha256 I S).publishCrate L cfg A headers body := by
  unfold Routes.publish publishCrate
  simp only [onSnd_publish]

/-- **The handlers over two providers are those over their backend.** -/
theorem handle_eq (r : CrateRoute) :
    Routes.handle L sha256 cfg X A I S headers r.route =
      (ofProviders sha256 I S).handle L cfg X A headers r := by
  cases r with
  | serveCrate path => simp only [CrateRoute.route, Routes.handle, handle, serveCrate_eq sha256]
  | publish body => simp only [CrateRoute.route, Routes.handle, handle, publishCrate_eq]
  | _ => rfl

/-! ## Simulation -/

/-- From related stores the two backends answer alike, and they leave related stores. -/
structure Sim {κ υ : Type} (R : ι × σ → κ × υ → Prop) (B : Backend ι σ ε) (C : Backend κ υ ε) :
    Prop where
  sparseEntry : ∀ name, Tx.Sim R (B.sparseEntry name) (C.sparseEntry name)
  download : ∀ name version, Tx.Sim R (B.download name version) (C.download name version)
  publish : ∀ json crateBytes, Tx.Sim R (B.publish json crateBytes) (C.publish json crateBytes)
  yank : ∀ flag name version, Tx.Sim R (B.yank flag name version) (C.yank flag name version)

section Sim

variable {κ υ : Type} {R : ι × σ → κ × υ → Prop} {B : Backend ι σ ε} {C : Backend κ υ ε}

/-- The auth provider in the same state, and related stores. -/
def Beside (R : ι × σ → κ × υ → Prop) (s : α × ι × σ) (t : α × κ × υ) : Prop :=
  s.1 = t.1 ∧ R s.2 t.2

theorem sim_onAuth {β : Type} (x : Tx α ε β) :
    Tx.Sim (Beside R) (onAuth x : Handler α ι σ ε β) (onAuth x) :=
  Tx.sim_onFst _

theorem sim_whenAuthRequired (missing : Failure ε) (check : String → Tx α ε Unit) :
    Tx.Sim (Beside R)
      (whenAuthRequired cfg (do
        let token ← Tx.lift (token A headers missing)
        onAuth (check token)) : Handler α ι σ ε Unit)
      (whenAuthRequired cfg (do
        let token ← Tx.lift (token A headers missing)
        onAuth (check token))) := by
  unfold whenAuthRequired
  split_ifs
  · exact Tx.sim_lift_bind fun _ _ => sim_onAuth _
  · exact Tx.sim_answer ()

theorem Sim.getSparseMeta (h : Sim R B C) (path : String) :
    Tx.Sim (Beside R) (B.getSparseMeta cfg X A headers path : Handler α ι σ ε _)
      (C.getSparseMeta cfg X A headers path) := by
  refine Tx.sim_lift_bind fun crateIndexPath _ => ?_
  cases rsplitOnce crateIndexPath with
  | none => exact Tx.sim_fail _
  | some x =>
    refine (sim_whenAuthRequired _ fun token => A.authIndexFetch token x.2).bind fun _ => ?_
    exact (h.sparseEntry x.2).onSnd.bind fun _ => Tx.sim_answer _

theorem Sim.serveCrate (h : Sim R B C) (path : String) :
    Tx.Sim (Beside R) (B.serveCrate cfg X A headers path : Handler α ι σ ε _)
      (C.serveCrate cfg X A headers path) := by
  refine Tx.sim_lift_bind fun x _ => ?_
  refine (sim_whenAuthRequired _ fun token => A.authCrateDownload token x.1).bind fun _ => ?_
  exact (h.download x.1 x.2).onSnd

theorem Sim.publishCrate (h : Sim R B C) (body : Bytes) :
    Tx.Sim (Beside R) (B.publishCrate L cfg A headers body : Handler α ι σ ε _)
      (C.publishCrate L cfg A headers body) := by
  unfold Backend.publishCrate
  split_ifs
  · exact Tx.sim_fail _
  · refine Tx.sim_lift_bind fun token _ => Tx.sim_lift_bind fun x _ => ?_
    exact (sim_onAuth _).bind fun _ => (h.publish x.1 x.2).onSnd

theorem Sim.yankCrate (h : Sim R B C) (flag : Bool) (path : String) :
    Tx.Sim (Beside R) (B.yankCrate X A headers flag path : Handler α ι σ ε _)
      (C.yankCrate X A headers flag path) := by
  refine Tx.sim_lift_bind fun x _ => Tx.sim_lift_bind fun token _ => ?_
  exact (sim_onAuth _).bind fun _ => (h.yank flag x.1 x.2).onSnd

/-- **Backends that answer alike make servers that do.** -/
theorem Sim.handle (h : Sim R B C) (r : CrateRoute) :
    Tx.Sim (Beside R) (B.handle L cfg X A headers r : Handler α ι σ ε _)
      (C.handle L cfg X A headers r) := by
  cases r with
  | config =>
    refine Tx.Sim.bind ?_ fun _ => Tx.sim_answer _
    refine Tx.Sim.bind ?_ fun _ => Tx.sim_answer _
    exact sim_whenAuthRequired _ fun token => A.authConfig token
  | getSparseMeta path => exact (h.getSparseMeta path).bind fun _ => Tx.sim_answer _
  | serveCrate path => exact (h.serveCrate path).bind fun _ => Tx.sim_answer _
  | publish body => exact (h.publishCrate body).bind fun _ => Tx.sim_answer _
  | yank path => exact (h.yankCrate true path).bind fun _ => Tx.sim_answer _
  | unyank path => exact (h.yankCrate false path).bind fun _ => Tx.sim_answer _

end Sim

end Backend

end Backend

end Routes

/-! ## The registry -/

/-- A release: its entry in the index and its tarball. -/
structure Release where
  entry : CrateVersion
  tarball : Bytes

/-- The releases of each crate, by its name in lower case, in the order of their publishes. -/
abbrev Registry : Type := String → List Release

/-- What fails during a request. -/
structure Faults where
  readIndex : Bool := false
  storeTarball : Bool := false
  writeIndex : Bool := false
  fetchTarball : Bool := false

namespace Registry

open FsIndex (accessCrate)
open Routes (Failure Backend)

def empty : Registry := fun _ => []

variable (sha256 : Bytes → Checksum) (faults : Faults) {ε : Type}

/-- The key of a crate, and its releases. -/
def crate (reg : Registry) (name : String) : Except IndexError (String × List Release) :=
  match accessCrate name with
  | .error e => .error e
  | .ok m => if faults.readIndex then .error .serviceError else .ok (m.key, reg m.key)

/-- The release of a version. -/
def find (releases : List Release) (version : Version) : Option Release :=
  releases.find? fun r => r.entry.vers = version

/-- The release with its flag set, if it is of the version. -/
def setYanked (version : Version) (flag : Bool) (r : Release) : Release :=
  if r.entry.vers = version then { r with entry := { r.entry with yanked := flag } } else r

/-- The entries of a crate that has releases. -/
def sparseEntry (name : String) : Tx Registry IndexError (List CrateVersion) := fun reg =>
  match crate faults reg name with
  | .error e => (.error e, reg)
  | .ok (_, []) => (.error .notFound, reg)
  | .ok (_, releases) => (.ok (releases.map Release.entry), reg)

/-- The tarball of a release, which is found by the name it was published with. -/
def download (name : String) (version : Version) : Tx Registry (Failure ε) Bytes := fun reg =>
  match crate faults reg name with
  | .error e => (.error (.api (.index e)), reg)
  | .ok (_, releases) =>
    match find releases version with
    | none => (.error (.api (.index .notFound)), reg)
    | some r =>
      if faults.fetchTarball then (.error (.storage .serviceError), reg)
      else if r.entry.name = name then (.ok r.tarball, reg)
      else (.error (.storage .notFound), reg)

/-- A release of a new version. -/
def publish (json : Publish) (tarball : Bytes) :
    Tx Registry IndexError CompletedPublication := fun reg =>
  match crate faults reg json.name with
  | .error e => (.error e, reg)
  | .ok (key, releases) =>
    match find releases json.vers with
    | some _ => (.error (FsIndex.alreadyExists json), reg)
    | none =>
      if faults.storeTarball || faults.writeIndex then (.error .serviceError, reg)
      else
        (.ok .noWarnings, Function.update reg key
          (releases ++ [⟨FsIndex.release json (sha256 tarball), tarball⟩]))

/-- The flag of a version that is there. -/
def yank (flag : Bool) (name : String) (version : Version) : Tx Registry IndexError Unit :=
  fun reg =>
    match crate faults reg name with
    | .error e => (.error e, reg)
    | .ok (key, releases) =>
      match find releases version with
      | none => (.error .notFound, reg)
      | some _ =>
        if faults.writeIndex then (.error .serviceError, reg)
        else (.ok (), Function.update reg key (releases.map (setYanked version flag)))

/-- The registry as a backend of the routes, without a second store. -/
def backend : Backend Registry Unit ε where
  sparseEntry name := ((sparseEntry faults name).mapError fun e => .api (.index e)).onFst
  download name version := (download faults name version).onFst
  publish json tarball :=
    ((publish sha256 faults json tarball).mapError fun e => .api (.index e)).onFst
  yank flag name version :=
    ((yank faults flag name version).mapError fun e => .api (.index e)).onFst

end Registry

end Freighter
