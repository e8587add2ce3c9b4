import Freighter.Lib.Base64
import Freighter.Lib.HashMap
import Freighter.Lib.Run
import Mathlib.Data.Finset.Card
import Mathlib.Data.Finset.Dedup

/-!
# The filesystem auth provider

`FsAuthProvider` holds the tables of tokens and crate owners in memory, loads them from
`owners.json` on first use and saves them there. One call runs under the lock of the tables, so a
run is a sequence of calls.

* `Owners`, `Owners.register`, `Owners.ensureAuthorizedForCrate`;
* `loadOwnersFile`, `syncOwners`, `ownersMut`; the calls `register`, `listOwners`, `addOwners`,
  `removeOwners`, `publish`, `authYank`, `ensureValidToken` and their dispatch `call`.

HMAC-SHA-224 under the provider's pepper is the parameter `hashToken`.
-/

namespace Freighter

inductive AuthError where
  | unauthorized
  | forbidden
  | invalidCredentials
  | unimplemented
  | crateNotFound
  | serviceError
deriving DecidableEq

abbrev AuthResult (α : Type) : Type := Except AuthError α

/-- An owner in an answer. -/
structure ListedOwner where
  id : ℕ
  login : String
  name : Option String

/-- A token as it was drawn, `[u8; 21]`. -/
abbrev BareToken : Type := List.Vector UInt8 21

/-- A token as it is stored, `[u8; 28]`. -/
abbrev HashedToken : Type := List.Vector UInt8 28

def TOKEN_PREFIX : String := "fr1_"

/-- `str::strip_prefix`. -/
def stripPrefix (pre s : String) : Option String :=
  if pre.toList.isPrefixOf s.toList then some (String.ofList (s.toList.drop pre.toList.length))
  else none

namespace FsAuth

/-! ## The tables -/

/-- The tables. `ownerTokens` is not saved. -/
structure Owners where
  tokenOwners : HashMap HashedToken String
  crateOwners : HashMap String (Finset String)
  ownerTokens : HashMap String HashedToken

/-- The saved tables. -/
def Owners.tables (o : Owners) : HashMap HashedToken String × HashMap String (Finset String) :=
  (o.tokenOwners, o.crateOwners)

/-- The reverse lookup index of `tokenOwners`. -/
def Owners.invert (o : Owners) : HashMap String HashedToken :=
  HashMap.collect (o.tokenOwners.iter.map fun e => (e.2, e.1))

/-- `Owners::register`, first the rebuilding of the reverse index. -/
def Owners.fillOwnerTokens (o : Owners) : Owners :=
  if o.ownerTokens.entries.isEmpty then { o with ownerTokens := o.invert } else o

def Owners.register (o : Owners) (login : String) (token : HashedToken) :
    AuthResult Unit × Owners :=
  let o := o.fillOwnerTokens
  if login ∈ o.ownerTokens then (.error .forbidden, o)
  else
    (.ok (), { o with
      ownerTokens := o.ownerTokens.insert login token
      tokenOwners := o.tokenOwners.insert token login })

def Owners.loginForToken (o : Owners) (token : HashedToken) : AuthResult String :=
  match o.tokenOwners.lookup token with
  | some login => .ok login
  | none => .error .invalidCredentials

def Owners.ensureAuthorizedForCrate (o : Owners) (token : HashedToken) (crateName : String) :
    AuthResult Unit :=
  match o.crateOwners.lookup crateName with
  | none => .error .crateNotFound
  | some owners =>
    match o.loginForToken token with
    | .error e => .error e
    | .ok login => if login ∈ owners then .ok () else .error .forbidden

/-! ## The file -/

/-- What is at `owners.json`: no file, a file that does not parse, or saved tables. -/
inductive OwnersJson where
  | missing
  | garbage
  | saved (tokenOwners : HashMap HashedToken String)
      (crateOwners : HashMap String (Finset String))

/-- What becomes of a save. The last bytes are written when `BufWriter` is dropped, which discards
the error of that write. -/
inductive Write where
  | done
  | failed
  | truncated
deriving DecidableEq

/-- What the file system does during a call. -/
structure Io where
  readFails : Bool := false
  write : Write := .done
deriving DecidableEq

/-- The provider and its directory. -/
structure FsAuthProvider where
  owners : Option Owners
  ownersJson : OwnersJson

/-- `FsAuthProvider::new` on a directory. -/
def new (file : OwnersJson) : FsAuthProvider := ⟨none, file⟩

def loadOwnersFile (io : Io) (p : FsAuthProvider) : AuthResult Owners :=
  if io.readFails then .error .serviceError
  else
    match p.ownersJson with
    | .missing => .ok ⟨∅, ∅, ∅⟩
    | .garbage => .error .serviceError
    | .saved tokenOwners crateOwners => .ok ⟨tokenOwners, crateOwners, ∅⟩

def syncOwners (io : Io) (owners : Owners) (file : OwnersJson) : AuthResult Unit × OwnersJson :=
  match io.write with
  | .done => (.ok (), .saved owners.tokenOwners owners.crateOwners)
  | .failed => (.error .serviceError, file)
  | .truncated => (.ok (), .garbage)

/-- `owners` and `owners_mut`: the tables in memory, loaded if they are not there yet. -/
def ownersMut (io : Io) (p : FsAuthProvider) : AuthResult Owners :=
  match p.owners with
  | some o => .ok o
  | none => loadOwnersFile io p

/-- Run the rest of a call on the tables, which stay in memory whatever it returns. -/
def withOwners {α : Type} (io : Io) (p : FsAuthProvider)
    (body : Owners → AuthResult α × Owners × OwnersJson) : AuthResult α × FsAuthProvider :=
  match ownersMut io p with
  | .error e => (.error e, p)
  | .ok o =>
    let (r, o, file) := body o
    (r, ⟨some o, file⟩)

/-! ## The calls -/

section Calls

variable (hashToken : BareToken → HashedToken)

def tokenToStr (bareToken : BareToken) : String :=
  TOKEN_PREFIX ++ String.ofList (Base64.encode bareToken.toList)

def tokenFromStr (tokenStr : String) : AuthResult HashedToken :=
  match stripPrefix TOKEN_PREFIX tokenStr with
  | none => .error .invalidCredentials
  | some rest =>
    match Base64.decodeN 21 rest with
    | none => .error .invalidCredentials
    | some bareToken => .ok (hashToken bareToken)

/-- `bareToken` is what `random_token` draws. -/
def register (io : Io) (p : FsAuthProvider) (username : String) (bareToken : BareToken) :
    AuthResult String × FsAuthProvider :=
  withOwners io p fun owners =>
    match owners.register username (hashToken bareToken) with
    | (.error e, owners) => (.error e, owners, p.ownersJson)
    | (.ok (), owners) =>
      let (r, file) := syncOwners io owners p.ownersJson
      (r.map fun _ => tokenToStr bareToken, owners, file)

def listOwners (io : Io) (p : FsAuthProvider) (crateName : String) :
    AuthResult (Finset String) × FsAuthProvider :=
  withOwners io p fun owners =>
    match owners.crateOwners.lookup crateName with
    | none => (.error .crateNotFound, owners, p.ownersJson)
    | some logins => (.ok logins, owners, p.ownersJson)

def addOwners (io : Io) (p : FsAuthProvider) (tokenStr : String) (users : List String)
    (crateName : String) : AuthResult Unit × FsAuthProvider :=
  match tokenFromStr hashToken tokenStr with
  | .error e => (.error e, p)
  | .ok hashedToken =>
    withOwners io p fun owners =>
      match owners.ensureAuthorizedForCrate hashedToken crateName with
      | .error e => (.error e, owners, p.ownersJson)
      | .ok () =>
        match owners.crateOwners.lookup crateName with
        | none => (.error .crateNotFound, owners, p.ownersJson)
        | some logins =>
          let owners := { owners with
            crateOwners := owners.crateOwners.insert crateName (logins ∪ users.toFinset) }
          let (r, file) := syncOwners io owners p.ownersJson
          (r, owners, file)

/-- The loop of `remove_owners`; `false` when it stops at a last owner. -/
def removeLoop (logins : Finset String) : List String → Finset String × Bool
  | [] => (logins, true)
  | login :: users =>
    if 1 < logins.card then removeLoop (logins.erase login) users else (logins, false)

def removeOwners (io : Io) (p : FsAuthProvider) (tokenStr : String) (users : List String)
    (crateName : String) : AuthResult Unit × FsAuthProvider :=
  match tokenFromStr hashToken tokenStr with
  | .error e => (.error e, p)
  | .ok hashedToken =>
    withOwners io p fun owners =>
      match owners.ensureAuthorizedForCrate hashedToken crateName with
      | .error e => (.error e, owners, p.ownersJson)
      | .ok () =>
        match owners.crateOwners.lookup crateName with
        | none => (.error .crateNotFound, owners, p.ownersJson)
        | some logins =>
          let (logins, finished) := removeLoop logins users
          let owners := { owners with crateOwners := owners.crateOwners.insert crateName logins }
          let (r, file) := syncOwners io owners p.ownersJson
          -- the save comes first on both exits, and its error goes out first
          (r.bind fun _ => if finished then .ok () else .error .forbidden, owners, file)

/-- The claim of a crate that has no owners yet. -/
def Owners.claim (o : Owners) (hashedToken : HashedToken) (crateName : String) :
    AuthResult Owners :=
  if crateName ∈ o.crateOwners then .ok o
  else
    (o.loginForToken hashedToken).map fun login =>
      { o with crateOwners := o.crateOwners.insert crateName {login} }

def publish (io : Io) (p : FsAuthProvider) (tokenStr crateName : String) :
    AuthResult Unit × FsAuthProvider :=
  match tokenFromStr hashToken tokenStr with
  | .error e => (.error e, p)
  | .ok hashedToken =>
    withOwners io p fun owners =>
      match owners.claim hashedToken crateName with
      | .error e => (.error e, owners, p.ownersJson)
      | .ok owners =>
        (owners.ensureAuthorizedForCrate hashedToken crateName, owners, p.ownersJson)

def authYank (io : Io) (p : FsAuthProvider) (tokenStr crateName : String) :
    AuthResult Unit × FsAuthProvider :=
  match tokenFromStr hashToken tokenStr with
  | .error e => (.error e, p)
  | .ok hashedToken =>
    withOwners io p fun owners =>
      (owners.ensureAuthorizedForCrate hashedToken crateName, owners, p.ownersJson)

/-- `ensure_valid_token`, which is `auth_config`, `auth_index_fetch`, `auth_crate_download` and
`auth_view_full_index`. -/
def ensureValidToken (io : Io) (p : FsAuthProvider) (tokenStr : String) :
    AuthResult Unit × FsAuthProvider :=
  match tokenFromStr hashToken tokenStr with
  | .error e => (.error e, p)
  | .ok hashedToken =>
    withOwners io p fun owners =>
      ((owners.loginForToken hashedToken).map fun _ => (), owners, p.ownersJson)

/-- A call on the provider. -/
inductive Call where
  | register (username : String) (bareToken : BareToken)
  | listOwners (crateName : String)
  | addOwners (tokenStr : String) (users : List String) (crateName : String)
  | removeOwners (tokenStr : String) (users : List String) (crateName : String)
  | publish (tokenStr crateName : String)
  | authYank (tokenStr crateName : String)
  | ensureValidToken (tokenStr : String)

/-- What a successful call returns. -/
inductive Reply where
  | done
  | token (tokenStr : String)
  | logins (owners : Finset String)
deriving DecidableEq

def call (p : FsAuthProvider) (io : Io) : Call → AuthResult Reply × FsAuthProvider
  | .register username bareToken =>
    (register hashToken io p username bareToken).map (·.map .token) id
  | .listOwners crateName => (listOwners io p crateName).map (·.map .logins) id
  | .addOwners tokenStr users crateName =>
    (addOwners hashToken io p tokenStr users crateName).map (·.map fun _ => .done) id
  | .removeOwners tokenStr users crateName =>
    (removeOwners hashToken io p tokenStr users crateName).map (·.map fun _ => .done) id
  | .publish tokenStr crateName =>
    (publish hashToken io p tokenStr crateName).map (·.map fun _ => .done) id
  | .authYank tokenStr crateName =>
    (authYank hashToken io p tokenStr crateName).map (·.map fun _ => .done) id
  | .ensureValidToken tokenStr =>
    (ensureValidToken hashToken io p tokenStr).map (·.map fun _ => .done) id

end Calls

/-! ## Tokens as texts -/

theorem toList_tokenToStr (bareToken : BareToken) : (tokenToStr bareToken).toList =
    TOKEN_PREFIX.toList ++ Base64.encode bareToken.toList := by
  rw [tokenToStr, String.toList_append, String.toList_ofList]

theorem stripPrefix_eq_some_iff {pre s rest : String} :
    stripPrefix pre s = some rest ↔ pre ++ rest = s := by
  unfold stripPrefix
  rw [← String.toList_inj, String.toList_append]
  constructor
  · intro h
    split_ifs at h with hpre
    cases h
    obtain ⟨cs, hcs⟩ := List.isPrefixOf_iff_prefix.mp hpre
    rw [String.toList_ofList, ← hcs, List.drop_left]
  · intro h
    rw [← h, if_pos (List.isPrefixOf_iff_prefix.mpr (List.prefix_append _ _)), List.drop_left,
      String.ofList_toList]

/-- A token that was handed out is read back as its hash. -/
theorem tokenFromStr_tokenToStr {hashToken : BareToken → HashedToken} (bareToken : BareToken) :
    tokenFromStr hashToken (tokenToStr bareToken) = .ok (hashToken bareToken) := by
  have hrest : stripPrefix TOKEN_PREFIX (tokenToStr bareToken) =
      some (String.ofList (Base64.encode bareToken.toList)) := stripPrefix_eq_some_iff.mpr rfl
  simp only [tokenFromStr, hrest, Base64.decodeN_encode]

/-! ## Two tokens under the pepper `[123; 18]` -/

def tokenZero : BareToken := List.Vector.replicate 21 0

def tokenOne : BareToken := List.Vector.replicate 21 1

/-- HMAC-SHA-224 under the pepper `[123; 18]` of `tokenZero` and of `tokenOne`. -/
def testHash (bareToken : BareToken) : HashedToken :=
  if bareToken.toList = tokenZero.toList then
    ⟨[121, 135, 104, 128, 1, 182, 46, 157, 127, 56, 114, 144, 137, 219, 125, 250, 244, 196, 20,
      255, 41, 243, 118, 130, 67, 26, 117, 221], rfl⟩
  else
    ⟨[75, 15, 205, 236, 254, 57, 172, 53, 25, 40, 200, 176, 115, 39, 128, 46, 104, 57, 7, 177, 53,
      132, 238, 170, 218, 60, 187, 248], rfl⟩

end FsAuth

end Freighter
