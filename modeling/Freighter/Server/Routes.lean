import Freighter.Lib.Transaction
import Freighter.Server.Handlers
import Freighter.Types.Response

/-!
# The routes of the registry

The handlers over any three providers. A request is a step on the states of the providers that
answers or fails.

* `AuthProvider`, `IndexProvider`, `StorageProvider`: the traits;
* `config`, `getSparseMeta`, `serveCrate`, `search`, `list`, `publish`, `yank`, `unyank` and their
  dispatch `handle`;
* `fsAuth`, `fsIndex`, `s3`: the providers of the other modules; **`publish_eq`**, **`yank_eq`**:
  over them the handlers are `Server.publish` and `Server.yank`.

What happens to a request before its handler (percent decoding, the query string) is a parameter.
-/

namespace Freighter

/-- `HeaderMap`: the names, in lower case, with their values. -/
abbrev HeaderMap : Type := List (String × Bytes)

namespace Routes

open Server (unframe headerToStr)

/-! ## The traits -/

/-- `AuthProvider`, what the routes use of it, with its errors `ε`. Whatever a call depends on is
part of the state `α`. -/
structure AuthProvider (α ε : Type) where
  tokenFromHeaders : HeaderMap → Except ℕ (Option String)
  publish : String → String → Tx α ε Unit
  authYank : String → String → Tx α ε Unit
  authIndexFetch : String → String → Tx α ε Unit
  authCrateDownload : String → String → Tx α ε Unit
  authViewFullIndex : String → Tx α ε Unit
  authConfig : String → Tx α ε Unit

/-- `IndexProvider`. Its `publish` runs an `end_step` on a world of its own. -/
structure IndexProvider (ι : Type) where
  getSparseEntry : String → Tx ι IndexError (List CrateVersion)
  confirmExistence : String → Version → Tx ι IndexError CrateVersionExists
  yankCrate : String → Version → Tx ι IndexError Unit
  unyankCrate : String → Version → Tx ι IndexError Unit
  search : String → ℕ → Tx ι IndexError SearchResults
  list : ListQuery → Tx ι IndexError ListAll
  publish : {ω : Type} → Publish → Checksum → Tx ω IndexError Unit →
    Tx (ι × ω) IndexError CompletedPublication

structure StorageProvider (σ : Type) where
  pullCrate : String → String → Checksum → Tx σ StorageError Bytes
  putCrate : String → String → Bytes → Checksum → Tx σ StorageError Unit
  deleteCrate : String → String → Checksum → Tx σ StorageError Unit

/-! ## Requests and responses -/

/-- `ServiceConfig`, what the routes read of it. -/
structure ServiceConfig where
  downloadEndpoint : String
  apiEndpoint : String
  authRequired : Bool
  crateSizeLimit : ℕ

/-- The extractors `Path` and `Query`, which may refuse with a text. -/
structure Extractors where
  crateIndexPath : String → Except String String
  nameAndVersion : String → Except String (String × Version)
  searchQuery : String → Except String SearchQuery
  listQuery : String → Except String ListQuery

/-- A request after routing, with its path parameters, query or body as they came. -/
inductive Route where
  | config
  | getSparseMeta (path : String)
  | serveCrate (path : String)
  | search (query : String)
  | list (query : String)
  | publish (body : Bytes)
  | yank (path : String)
  | unyank (path : String)

/-- Why a request fails. `login` is the 401 of `config`, which asks for a login; `auth` has the
error of the auth provider with its text. -/
inductive Failure (ε : Type) where
  | api (e : ApiError)
  | login (text : String)
  | auth (e : ε)
  | storage (e : StorageError)
  | panicked

def Failure.status {ε : Type} (code : ℕ) (text : String) : Failure ε := .api (.status code text)

inductive Answer where
  | config (c : RegistryConfig)
  | sparse (entries : List CrateVersion)
  | crate (data : Bytes)
  | search (r : SearchResults)
  | list (r : ListAll)
  | published (r : CompletedPublication)
  | yanked

/-- A step of a handler, on the states of the three providers. -/
abbrev Handler (α ι σ ε β : Type) : Type := Tx (α × ι × σ) (Failure ε) β

section Handlers

variable {α ι σ ε β : Type}

def onAuth (x : Tx α ε β) : Handler α ι σ ε β := (x.mapError .auth).onFst

def onIndex (x : Tx ι IndexError β) : Handler α ι σ ε β :=
  ((x.mapError fun e => .api (.index e)).onFst).onSnd

def onStorage (x : Tx σ StorageError β) : Handler α ι σ ε β := ((x.mapError .storage).onSnd).onSnd

/-- An extracted value, or 400. -/
def extract (r : Except String β) : Except (Failure ε) β := r.mapError (.status 400)

/-- `str::rsplit_once` with a slash: what is before and after the last one. -/
def rsplitOnce (s : String) : Option (String × String) :=
  let after := s.toList.reverse.takeWhile (· != '/')
  match s.toList.reverse.drop after.length with
  | [] => none
  | _ :: before => some (String.ofList before.reverse, String.ofList after.reverse)

/-- The JSON and the tarball of a body. -/
def decodeBody (L : Libs) (body : Bytes) : Except (Failure ε) (Publish × Bytes) :=
  match unframe body with
  | none => .error .panicked
  | some (.error e) => .error (.api e)
  | some (.ok (jsonBytes, crateBytes)) =>
    match (L.json.fromSlice jsonBytes).bind (Publish.fromJson L) with
    | none => .error (.status 400 "JSON parsing error")
    | some json => .ok (json, crateBytes)

/-! ## `ensure_correct_metadata` -/

/-- The name in an action: without `dep:`, up to the first `?` or `/`. -/
def actionName (action : String) : String :=
  String.ofList (((stripPrefix "dep:" action).getD action).toList.takeWhile
    fun c => c != '?' && c != '/')

def validFeatures (e : CrateVersion) : List String :=
  e.features.keys ++ e.features2.keys

/-- The action names a feature, or its name is the name of a dependency. -/
def retains (e : CrateVersion) (action : String) : Bool :=
  action ∈ validFeatures e || e.deps.any (·.name == actionName action)

def missingFeatures (e : CrateVersion) : List String :=
  (((e.features.iter ++ e.features2.iter).flatMap Prod.snd).filter fun action =>
    !retains e action && actionName action ∉ validFeatures e).map actionName

/-- `Entry::or_insert_with(Vec::new)`. -/
def orInsertNew (features : HashMap String (List String)) (f : String) :
    HashMap String (List String) :=
  if f ∈ features then features else features.insert f []

def ensureCorrectMetadata (e : CrateVersion) : CrateVersion :=
  let retain (m : HashMap String (List String)) :=
    HashMap.collect (m.iter.map fun x => (x.1, x.2.filter (retains e)))
  { e with
    features := (missingFeatures e).foldl orInsertNew (retain e.features)
    features2 := retain e.features2 }

/-! ## The handlers -/

section Routes

variable (L : Libs) (sha256 : Bytes → Checksum) (cfg : ServiceConfig) (X : Extractors)
  (A : AuthProvider α ε) (I : IndexProvider ι) (S : StorageProvider σ) (headers : HeaderMap)

/-- The token that a handler goes on with; it fails with `missing` when there is none. -/
def token (missing : Failure ε) : Except (Failure ε) String :=
  match A.tokenFromHeaders headers with
  | .error code => .error (.status code "")
  | .ok none => .error missing
  | .ok (some token) => .ok token

/-- Ask the auth provider, when the configuration says so. -/
def whenAuthRequired (check : Handler α ι σ ε Unit) : Handler α ι σ ε Unit :=
  if cfg.authRequired then check else Tx.answer ()

def CARGO_AUTH_REQUIRED_ERROR : String :=
  "error: This registry requires cargo authentication\nhttps://doc.rust-lang.org/cargo/reference/registry-authentication.html"

def config : Handler α ι σ ε RegistryConfig := do
  whenAuthRequired cfg do
    let token ← Tx.lift (token A headers (.login CARGO_AUTH_REQUIRED_ERROR))
    onAuth (A.authConfig token)
  Tx.answer ⟨cfg.downloadEndpoint, cfg.apiEndpoint, cfg.authRequired⟩

def getSparseMeta (path : String) : Handler α ι σ ε (List CrateVersion) := do
  let crateIndexPath ← Tx.lift (extract (X.crateIndexPath path))
  match rsplitOnce crateIndexPath with
  | none => Tx.fail (.status 400 "")
  | some (_, crateName) => do
    whenAuthRequired cfg do
      let token ← Tx.lift (token A headers (.status 401 ""))
      onAuth (A.authIndexFetch token crateName)
    let entries ← onIndex (I.getSparseEntry crateName)
    Tx.answer (entries.map ensureCorrectMetadata)

def serveCrate (path : String) : Handler α ι σ ε Bytes := do
  let (name, version) ← Tx.lift (extract (X.nameAndVersion path))
  whenAuthRequired cfg do
    let token ← Tx.lift (token A headers (.status 401 ""))
    onAuth (A.authCrateDownload token name)
  let expectedCrate ← onIndex (I.confirmExistence name version)
  onStorage (S.pullCrate name version.display expectedCrate.tarballChecksum)

def search (query : String) : Handler α ι σ ε SearchResults := do
  let query ← Tx.lift (extract (X.searchQuery query))
  whenAuthRequired cfg do
    let token ← Tx.lift (token A headers (.status 401 "Auth token missing"))
    onAuth (A.authViewFullIndex token)
  onIndex (I.search query.q (query.perPage.elim 10 (max · 100)))

def list (query : String) : Handler α ι σ ε ListAll := do
  let query ← Tx.lift (extract (X.listQuery query))
  whenAuthRequired cfg do
    let token ← Tx.lift (token A headers (.status 401 ""))
    onAuth (A.authViewFullIndex token)
  onIndex (I.list query)

/-- The `end_step` of a publish: store the tarball and set `stored_crate`. -/
def storeCrate (json : Publish) (crateBytes : Bytes) : Tx (Bool × σ) IndexError Unit := fun w =>
  match S.putCrate json.name json.vers.display crateBytes (sha256 crateBytes) w.2 with
  | (.error _, s) => (.error .serviceError, w.1, s)
  | (.ok (), s) => (.ok (), true, s)

/-- `publish` from the point where the request is authorised. -/
def publishStores (json : Publish) (crateBytes : Bytes) :
    Handler α ι σ ε CompletedPublication := fun (a, i, s) =>
  match I.publish json (sha256 crateBytes) (storeCrate sha256 S json crateBytes) (i, false, s) with
  | (.ok res, i, storedCrate, s) =>
    if storedCrate then (.ok res, a, i, s) else (.error .panicked, a, i, s)
  | (.error e, i, storedCrate, s) =>
    if storedCrate then
      (.error (.api (.index e)), a, i,
        (S.deleteCrate json.name json.vers.display (sha256 crateBytes) s).2)
    else (.error (.api (.index e)), a, i, s)

def publish (body : Bytes) : Handler α ι σ ε CompletedPublication :=
  if cfg.crateSizeLimit < body.length then
    Tx.fail (.status 413 "Failed to buffer the request body: length limit exceeded")
  else do
    let token ← Tx.lift (token A headers (.status 401 "Auth token missing"))
    let (json, crateBytes) ← Tx.lift (decodeBody L body)
    onAuth (A.publish token json.name)
    publishStores sha256 I S json crateBytes

/-- `yank` and `unyank`, by the call of the index provider that they make. -/
def yankWith (call : String → Version → Tx ι IndexError Unit) (path : String) :
    Handler α ι σ ε Unit := do
  let (name, version) ← Tx.lift (extract (X.nameAndVersion path))
  let token ← Tx.lift (token A headers (.status 401 "Auth token missing"))
  onAuth (A.authYank token name)
  onIndex (call name version)

def yank (path : String) : Handler α ι σ ε Unit := yankWith X A headers I.yankCrate path

def unyank (path : String) : Handler α ι σ ε Unit := yankWith X A headers I.unyankCrate path

/-- The handler of a request. -/
def handle : Route → Handler α ι σ ε Answer
  | .config => do return .config (← config cfg A headers)
  | .getSparseMeta path => do return .sparse (← getSparseMeta cfg X A I headers path)
  | .serveCrate path => do return .crate (← serveCrate cfg X A I S headers path)
  | .search query => do return .search (← search cfg X A I headers query)
  | .list query => do return .list (← list cfg X A I headers query)
  | .publish body => do return .published (← publish L sha256 cfg A I S headers body)
  | .yank path => do
    yank X A I headers path
    return .yanked
  | .unyank path => do
    unyank X A I headers path
    return .yanked

end Routes

end Handlers

/-! ## The providers of the other modules -/

section Providers

variable (L : Libs) (hashToken : BareToken → HashedToken) (sha256 : Bytes → Checksum)

/-- `default_token_from_headers`. -/
def defaultTokenFromHeaders (headers : HeaderMap) : Except ℕ (Option String) :=
  match headers.lookup "authorization" with
  | none => .ok none
  | some auth =>
    match headerToStr auth with
    | some token => .ok (some token)
    | none => .error 400

def fsAuth (io : FsAuth.Io) : AuthProvider FsAuth.FsAuthProvider AuthError where
  tokenFromHeaders := defaultTokenFromHeaders
  publish token crateName p := FsAuth.publish hashToken io p token crateName
  authYank token crateName p := FsAuth.authYank hashToken io p token crateName
  authIndexFetch token _ p := FsAuth.ensureValidToken hashToken io p token
  authCrateDownload token _ p := FsAuth.ensureValidToken hashToken io p token
  authViewFullIndex token p := FsAuth.ensureValidToken hashToken io p token
  authConfig token p := FsAuth.ensureValidToken hashToken io p token

/-- `FsIndexProvider`, with its listings as parameters. -/
def fsIndex (io : FsIndex.Io) (search : String → ℕ → Tx FsIndex.Files IndexError SearchResults)
    (list : ListQuery → Tx FsIndex.Files IndexError ListAll) : IndexProvider FsIndex.Files where
  getSparseEntry crateName files := (FsIndex.getSparseEntry L io files crateName, files)
  confirmExistence crateName version files :=
    (FsIndex.confirmExistence L io files crateName version, files)
  yankCrate crateName version files := FsIndex.yankInner L io files crateName version true
  unyankCrate crateName version files := FsIndex.yankInner L io files crateName version false
  search := search
  list := list
  publish p tarballChecksum endStep w :=
    FsIndex.publish L io w.1 p tarballChecksum (fun _ => endStep) w.2

/-- `S3StorageProvider`; the flags are of the two reads of `pull_crate`. -/
def s3 (io : Server.Io) (newFails oldFails : Bool) : StorageProvider S3.Bucket where
  pullCrate name version tarballChecksum b :=
    (S3.pullCrate newFails oldFails b name version tarballChecksum, b)
  putCrate name version crateBytes tarballChecksum b :=
    S3.putCrate io.putCrateFails b name version crateBytes tarballChecksum
  deleteCrate name version tarballChecksum b :=
    S3.deleteCrate io.deleteNewFails io.deleteOldFails b name version tarballChecksum

/-- A result as a response of the handlers over these providers; they have no other failures. -/
def response {β : Type} : Except (Failure AuthError) β → Option (Server.Response β)
  | .ok b => some (.ok b)
  | .error (.api e) => some (.error e)
  | .error (.auth e) => some (.error (.auth e))
  | .error .panicked => some .panicked
  | .error (.login _) => none
  | .error (.storage _) => none

/-- The three states. -/
def parts (s : Server.Stores) : FsAuth.FsAuthProvider × FsIndex.Files × S3.Bucket :=
  (s.auth, s.files, s.bucket)

variable {L hashToken sha256} {cfg : ServiceConfig} {X : Extractors} {headers : HeaderMap}
  {io : Server.Io} {newFails oldFails : Bool}
  {searchFiles : String → ℕ → Tx FsIndex.Files IndexError SearchResults}
  {listFiles : ListQuery → Tx FsIndex.Files IndexError ListAll}

theorem token_ok_iff {α ε : Type} {A : AuthProvider α ε} {missing : Failure ε} {t : String} :
    token A headers missing = .ok t ↔ A.tokenFromHeaders headers = .ok (some t) := by
  unfold token
  rcases A.tokenFromHeaders headers with code | _ | t' <;> simp

/-- The token, as `Server.requireToken` has it. -/
theorem token_fsAuth : token (fsAuth hashToken io.auth) headers (.status 401 "Auth token missing") =
    (Server.requireToken (headers.lookup "authorization")).mapError .api := by
  change (match defaultTokenFromHeaders headers with
    | .error code => _
    | .ok none => _
    | .ok (some token) => _) = _
  unfold Server.requireToken Server.tokenFromHeaders defaultTokenFromHeaders
  cases headers.lookup "authorization" with
  | none => rfl
  | some auth => cases h : headerToStr auth <;> simp only [h] <;> rfl

theorem publishStores_eq (s : Server.Stores) (json : Publish) (crateBytes : Bytes) :
    (publishStores sha256 (fsIndex L io.index searchFiles listFiles) (s3 io newFails oldFails) json
      crateBytes (parts s)).map response id =
    (Server.publishAuthorized L sha256 io s json crateBytes).map some parts := by
  have hstep : (fun _ : FsIndex.Files => storeCrate sha256 (s3 io newFails oldFails) json
      crateBytes) = Server.endStep sha256 io json crateBytes := by
    funext files w
    cases hput : S3.putCrate io.putCrateFails w.2 json.name json.vers.display crateBytes
      (sha256 crateBytes) with
    | mk r b =>
      simp only [storeCrate, Server.endStep, s3, hput]
      cases r <;> rfl
  unfold publishStores Server.publishAuthorized parts
  simp only [fsIndex, hstep]
  cases FsIndex.publish L io.index s.files json (sha256 crateBytes)
    (Server.endStep sha256 io json crateBytes) (false, s.bucket) with
  | mk r w =>
    obtain ⟨files, storedCrate, bucket⟩ := w
    cases r with
    | ok res => cases storedCrate <;> rfl
    | error e => cases storedCrate <;> rfl

/-- A call of the auth provider, and what follows when it allows the request. -/
theorem onAuth_bind {β : Type} (s : Server.Stores) {check : Tx FsAuth.FsAuthProvider AuthError Unit}
    {r : AuthResult Unit} {auth : FsAuth.FsAuthProvider} (hcheck : check s.auth = (r, auth))
    (f : Unit → Handler FsAuth.FsAuthProvider FsIndex.Files S3.Bucket AuthError β) :
    (onAuth check >>= f) (parts s) =
      match r with
      | .error e => (.error (.auth e), parts { s with auth })
      | .ok () => f () (parts { s with auth }) := by
  have h : onAuth check (parts s) =
      ((r.mapError .auth : Except (Failure AuthError) Unit), parts { s with auth }) := by
    unfold onAuth Tx.onFst Tx.mapError parts
    rw [hcheck]
    cases r <;> rfl
  cases r with
  | error e => exact Tx.bind_of_error h
  | ok u => exact Tx.bind_of_ok h

/-- **`publish` over these providers is `Server.publish`.** -/
theorem publish_eq (s : Server.Stores) {body : Bytes} (hsize : body.length ≤ cfg.crateSizeLimit) :
    (publish L sha256 cfg (fsAuth hashToken io.auth) (fsIndex L io.index searchFiles listFiles)
      (s3 io newFails oldFails) headers body (parts s)).map response id =
    (Server.publish L hashToken sha256 io s (headers.lookup "authorization") body).map some
      parts := by
  unfold publish Server.publish Server.receive
  rw [if_neg (Nat.not_lt.mpr hsize), token_fsAuth]
  cases Server.requireToken (headers.lookup "authorization") with
  | error e => rfl
  | ok t =>
    simp only [Except.mapError, Tx.lift_ok_bind]
    unfold decodeBody
    cases unframe body with
    | none => rfl
    | some framed =>
      cases framed with
      | error e => rfl
      | ok pieces =>
        cases hjson : (L.json.fromSlice pieces.1).bind (Publish.fromJson L) with
        | none =>
          simp only [hjson]
          rfl
        | some json =>
          simp only [hjson, Tx.lift_ok_bind]
          cases hcheck : FsAuth.publish hashToken io.auth s.auth t json.name with
          | mk r auth =>
            rw [onAuth_bind s hcheck]
            cases r with
            | error e => rfl
            | ok u => exact publishStores_eq { s with auth } json pieces.2

/-- **`yank` and `unyank` over these providers are `Server.yank`.** -/
theorem yank_eq (flag : Bool) (s : Server.Stores) {path name : String} {version : Version}
    (hpath : X.nameAndVersion path = .ok (name, version)) :
    (yankWith X (fsAuth hashToken io.auth) headers (fun crateName version files =>
      FsIndex.yankInner L io.index files crateName version flag) path (parts s)).map response id =
    (Server.yank L hashToken flag io s (headers.lookup "authorization") name version).map some
      parts := by
  unfold yankWith Server.yank
  rw [hpath, token_fsAuth]
  simp only [extract, Except.mapError, Tx.lift_ok_bind]
  cases Server.requireToken (headers.lookup "authorization") with
  | error e => rfl
  | ok t =>
    simp only [Tx.lift_ok_bind]
    cases hcheck : FsAuth.authYank hashToken io.auth s.auth t name with
    | mk r auth =>
      rw [onAuth_bind s hcheck]
      cases r with
      | error e => rfl
      | ok u =>
        cases hyank : FsIndex.yankInner L io.index s.files name version flag with
        | mk r files =>
          simp only [onIndex, Tx.onSnd, Tx.onFst, Tx.mapError, parts, hyank]
          cases r <;> rfl

end Providers

end Routes

end Freighter
