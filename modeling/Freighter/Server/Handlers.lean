import Freighter.Auth.Effect
import Freighter.FsIndex.Provider
import Freighter.Server.Framing
import Freighter.Storage.S3

/-!
# The publish and yank handlers

`api::publish`, `api::yank` and `api::unyank` over `FsAuthProvider`, `FsIndexProvider` and
`S3StorageProvider`, a request at a time.

* `Stores`, `Io`: the three stores, and what the world does during a request;
* `tokenFromHeaders`, `receive`: what a request says;
* `publish`, `yank`: the handlers. A panic is `Response.panicked`.
-/

namespace Freighter

namespace Server

/-- The states of the three providers. -/
structure Stores where
  auth : FsAuth.FsAuthProvider
  files : FsIndex.Files
  bucket : S3.Bucket

/-- What the world does during a request. -/
structure Io where
  auth : FsAuth.Io := {}
  index : FsIndex.Io := {}
  putCrateFails : Bool := false
  deleteNewFails : Bool := false
  deleteOldFails : Bool := false

inductive Response (α : Type) where
  | ok (a : α)
  | error (e : ApiError)
  | panicked

/-! ## What a request says -/

/-- `HeaderValue::to_str`: visible ASCII and tabs. -/
def headerToStr (value : Bytes) : Option String :=
  if value.all fun b => (32 ≤ b && b < 127) || b == 9 then
    some (String.ofList (value.map fun b => Char.ofNat b.toNat))
  else none

/-- `default_token_from_headers`, from the value of the `Authorization` header. -/
def tokenFromHeaders : Option Bytes → Except ApiError (Option String)
  | none => .ok none
  | some auth =>
    match headerToStr auth with
    | some token => .ok (some token)
    | none => .error (badRequest "")

/-- The token that a handler goes on with. -/
def requireToken (authorization : Option Bytes) : Except ApiError String :=
  match tokenFromHeaders authorization with
  | .error e => .error e
  | .ok none => .error (.status 401 "Auth token missing")
  | .ok (some token) => .ok token

variable (L : Libs) (hashToken : BareToken → HashedToken)
  (sha256 : Bytes → Checksum)

/-- The token, the request and the tarball of a publish request. -/
def receive (authorization : Option Bytes) (body : Bytes) :
    Option (Except ApiError (String × Publish × Bytes)) :=
  match requireToken authorization with
  | .error e => some (.error e)
  | .ok auth =>
    match unframe body with
    | none => none
    | some (.error e) => some (.error e)
    | some (.ok (jsonBytes, crateBytes)) =>
      match (L.json.fromSlice jsonBytes).bind (Publish.fromJson L) with
      | none => some (.error (badRequest "JSON parsing error"))
      | some json => some (.ok (auth, json, crateBytes))

/-! ## The handlers -/

/-- The `end_step` of a publish: store the tarball and set `stored_crate`. -/
def endStep (io : Io) (json : Publish) (crateBytes : Bytes) (_ : FsIndex.Files)
    (w : Bool × S3.Bucket) : Except IndexError Unit × Bool × S3.Bucket :=
  match S3.putCrate io.putCrateFails w.2 json.name json.vers.display crateBytes
    (sha256 crateBytes) with
  | (.error _, bucket) => (.error .serviceError, w.1, bucket)
  | (.ok (), bucket) => (.ok (), true, bucket)

/-- A publish request from the point where it is authorised. -/
def publishAuthorized (io : Io) (s : Stores) (json : Publish) (crateBytes : Bytes) :
    Response CompletedPublication × Stores :=
  match FsIndex.publish L io.index s.files json (sha256 crateBytes)
    (endStep sha256 io json crateBytes) (false, s.bucket) with
  | (.ok res, files, storedCrate, bucket) =>
    if storedCrate then (.ok res, { s with files, bucket })
    else (.panicked, { s with files, bucket })
  | (.error e, files, storedCrate, bucket) =>
    if storedCrate then
      (.error (.index e), { s with
        files
        bucket := (S3.deleteCrate io.deleteNewFails io.deleteOldFails bucket json.name
          json.vers.display (sha256 crateBytes)).2 })
    else (.error (.index e), { s with files, bucket })

def publish (io : Io) (s : Stores) (authorization : Option Bytes) (body : Bytes) :
    Response CompletedPublication × Stores :=
  match receive L authorization body with
  | none => (.panicked, s)
  | some (.error e) => (.error e, s)
  | some (.ok (token, json, crateBytes)) =>
    match FsAuth.publish hashToken io.auth s.auth token json.name with
    | (.error e, auth) => (.error (.auth e), { s with auth })
    | (.ok (), auth) => publishAuthorized L sha256 io { s with auth } json crateBytes

/-- `yank` and `unyank`. -/
def yank (flag : Bool) (io : Io) (s : Stores) (authorization : Option Bytes) (name : String)
    (version : Version) : Response Unit × Stores :=
  match requireToken authorization with
  | .error e => (.error e, s)
  | .ok token =>
    match FsAuth.authYank hashToken io.auth s.auth token name with
    | (.error e, auth) => (.error (.auth e), { s with auth })
    | (.ok (), auth) =>
      match FsIndex.yankInner L io.index s.files name version flag with
      | (.error e, files) => (.error (.index e), { s with auth, files })
      | (.ok (), files) => (.ok (), { s with auth, files })

/-! ## What the handlers do -/

section Spec

variable {L hashToken sha256} {io : Io} {s : Stores} {json : Publish} {crateBytes : Bytes}

variable (sha256 crateBytes) in
/-- A request that the index does not accept changes nothing. -/
theorem publishAuthorized_of_not_accepts (h : ¬ FsIndex.Accepts L io.index s.files json) :
    ∃ e, publishAuthorized L sha256 io s json crateBytes = (.error (.index e), s) := by
  obtain ⟨e, hp⟩ := FsIndex.publish_of_not_accepts (sha256 crateBytes)
    (endStep sha256 io json crateBytes) (false, s.bucket) h
  refine ⟨e, ?_⟩
  unfold publishAuthorized
  rw [hp]
  rfl

variable (sha256 crateBytes) in
/-- A request that the index accepts: the upload fails, the index write fails and the clean-up
follows, or all goes well. -/
theorem publishAuthorized_of_accepts (h : FsIndex.Accepts L io.index s.files json) :
    let stored := Function.update s.bucket
      (S3.newPath json.name json.vers.display (sha256 crateBytes)) (some crateBytes)
    ∃ path data, publishAuthorized L sha256 io s json crateBytes =
      if io.putCrateFails then (.error (.index .serviceError), s)
      else if io.index.putFails then
        (.error (.index .serviceError), { s with
          bucket := (S3.deleteCrate io.deleteNewFails io.deleteOldFails stored json.name
            json.vers.display (sha256 crateBytes)).2 })
      else
        (.ok .noWarnings, { s with
          files := Function.update s.files path (some data)
          bucket := stored }) := by
  intro stored
  obtain ⟨lock, existing, -, -, hp⟩ := FsIndex.publish_of_accepts (sha256 crateBytes)
    (endStep sha256 io json crateBytes) (false, s.bucket) h
  refine ⟨lock.relPath, FsIndex.serializeData L
    (existing ++ [FsIndex.release json (sha256 crateBytes)]) (some json), ?_⟩
  have hstep : endStep sha256 io json crateBytes s.files (false, s.bucket) =
      if io.putCrateFails then (.error .serviceError, false, s.bucket)
      else (.ok (), true, stored) := by
    unfold endStep S3.putCrate S3.putObject S3.constructPaths
    by_cases hf : io.putCrateFails = true
    · simp only [hf, if_true]
    · simp only [hf, if_false, Bool.false_eq_true, stored]
  unfold publishAuthorized
  rw [hp, hstep]
  by_cases hput : io.putCrateFails = true
  · simp only [hput, if_true, Bool.false_eq_true, if_false]
  · by_cases hindex : io.index.putFails = true
    · simp only [hput, hindex, if_true, if_false, Bool.false_eq_true]
    · simp only [hput, hindex, if_true, if_false, Bool.false_eq_true]

/-- A request that is authorised goes on to the index. -/
theorem publish_of_receive {authorization : Option Bytes} {body : Bytes} {token : String}
    (hr : receive L authorization body = some (.ok (token, json, crateBytes)))
    (hok : (FsAuth.publish hashToken io.auth s.auth token json.name).1 = .ok ()) :
    publish L hashToken sha256 io s authorization body = publishAuthorized L sha256 io
      { s with auth := (FsAuth.publish hashToken io.auth s.auth token json.name).2 } json
        crateBytes := by
  unfold publish
  rw [hr]
  cases hp : FsAuth.publish hashToken io.auth s.auth token json.name with
  | mk r auth =>
    rw [hp] at hok
    cases hok
    simp only [hp]

/-- A request that is not authorised ends there. -/
theorem publish_of_refused {authorization : Option Bytes} {body : Bytes} {token : String}
    {e : AuthError} (hr : receive L authorization body = some (.ok (token, json, crateBytes)))
    (hrefused : (FsAuth.publish hashToken io.auth s.auth token json.name).1 = .error e) :
    publish L hashToken sha256 io s authorization body = (.error (.auth e),
      { s with auth := (FsAuth.publish hashToken io.auth s.auth token json.name).2 }) := by
  unfold publish
  rw [hr]
  cases hp : FsAuth.publish hashToken io.auth s.auth token json.name with
  | mk r auth =>
    rw [hp] at hrefused
    cases hrefused
    simp only [hp]

/-- An authorised request that is accepted succeeds when nothing fails. -/
theorem publish_succeeds {authorization : Option Bytes} {body : Bytes} {token : String}
    (hr : receive L authorization body = some (.ok (token, json, crateBytes)))
    (hok : (FsAuth.publish hashToken {} s.auth token json.name).1 = .ok ())
    (hacc : FsIndex.Accepts L {} s.files json) :
    (publish L hashToken sha256 {} s authorization body).1 = .ok .noWarnings := by
  have heq : publish L hashToken sha256 {} s authorization body = _ := publish_of_receive hr hok
  let s' : Stores := { s with
    auth := (FsAuth.publish hashToken {} s.auth token json.name).2 }
  have hacc' : FsIndex.Accepts L ({} : Io).index s'.files json := hacc
  obtain ⟨path, data, hp⟩ := publishAuthorized_of_accepts sha256 crateBytes hacc'
  rw [heq, hp]
  rfl

end Spec

/-! ## Requests of two users -/

section Requests

open FsAuth (tokenZero tokenOne tokenToStr testHash)

/-- Stores in which `user1` and `user2` have registered, and the crates have these owners. -/
def registered (crateOwners : HashMap String (Finset String)) : Stores where
  auth := ⟨some ⟨(AList.singleton (testHash tokenOne) "user2").insert (testHash tokenZero) "user1",
    crateOwners, ∅⟩, .missing⟩
  files _ := none
  bucket _ := none

/-- The `Authorization` header with a token. -/
def authorizationOf (bareToken : BareToken) : Option Bytes :=
  some ((tokenToStr bareToken).toList.map fun c => UInt8.ofNat c.toNat)

/-- What a client sends to publish `p` with the tarball "abc". -/
noncomputable def request (p : Publish) : Bytes :=
  (frame (Libs.canonical.json.toVec p.toJson) [97, 98, 99]).getD []

/-- Visible characters come through a header. -/
theorem headerToStr_of_visible {s : String} (h : ∀ c ∈ s.toList, 32 ≤ c.toNat ∧ c.toNat < 127) :
    headerToStr (s.toList.map fun c => UInt8.ofNat c.toNat) = some s := by
  have hbyte : ∀ c ∈ s.toList, (UInt8.ofNat c.toNat).toNat = c.toNat := by
    intro c hc
    have hlt := (h c hc).2
    rw [UInt8.toNat_ofNat']
    omega
  unfold headerToStr
  rw [if_pos]
  · rw [List.map_map]
    refine congrArg some ((congrArg String.ofList ?_).trans (String.ofList_toList))
    refine (List.map_congr_left fun c hc => ?_).trans (List.map_id _)
    rw [Function.comp_apply, hbyte c hc, Char.ofNat_toNat, id]
  · rw [List.all_map, List.all_eq_true]
    intro c hc
    have hvisible := h c hc
    simp only [Function.comp_apply, Bool.or_eq_true, Bool.and_eq_true, decide_eq_true_eq,
      UInt8.le_iff_toNat_le, UInt8.lt_iff_toNat_lt, hbyte c hc]
    exact Or.inl hvisible

/-- A token comes through the `Authorization` header. -/
theorem requireToken_authorizationOf (bareToken : BareToken) :
    requireToken (authorizationOf bareToken) = .ok (tokenToStr bareToken) := by
  have hall : ((TOKEN_PREFIX.toList ++ Base64.alphabet).all fun c =>
      32 ≤ c.toNat && c.toNat < 127) = true := by decide +kernel
  have hvisible : ∀ c ∈ (tokenToStr bareToken).toList, 32 ≤ c.toNat ∧ c.toNat < 127 := by
    intro c hc
    have hmem : c ∈ TOKEN_PREFIX.toList ++ Base64.alphabet := by
      rw [FsAuth.toList_tokenToStr, List.mem_append] at hc
      exact List.mem_append.mpr (hc.imp_right fun h => Base64.encode_subset _ h)
    simpa using List.all_eq_true.mp hall c hmem
  simp only [requireToken, tokenFromHeaders, authorizationOf, headerToStr_of_visible hvisible]

theorem receive_request {bareToken : BareToken} {p : Publish}
    (hlen : (Libs.canonical.json.toVec p.toJson).length < 2 ^ 32) :
    receive Libs.canonical (authorizationOf bareToken) (request p) =
      some (.ok (tokenToStr bareToken, p, [97, 98, 99])) := by
  have hframe : frame (Libs.canonical.json.toVec p.toJson) [97, 98, 99] = some (request p) := by
    unfold request frame
    rw [if_pos ⟨hlen, by decide⟩, Option.getD_some]
  unfold receive
  rw [requireToken_authorizationOf]
  simp only [unframe_frame hframe (by simp),
    Libs.canonical.json.fromSlice_toVec _ (p.fits_toJson 123), Option.bind_some,
    Publish.fromJson_toJson]

theorem resolves_registered (crateOwners : HashMap String (Finset String)) :
    FsAuth.Resolves testHash (registered crateOwners).auth (tokenToStr tokenZero) "user1" :=
  ⟨testHash tokenZero, _, FsAuth.tokenFromStr_tokenToStr _, rfl, AList.lookup_insert _⟩

end Requests

end Server

end Freighter
