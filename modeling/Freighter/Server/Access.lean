import Freighter.Auth.CfBackend
import Freighter.Server.Accounts
import Freighter.Server.Unauthorized

/-!
# The routes over Cloudflare Access

`CfAuthProvider` as the auth provider of the server. Its tokens come in the `Authorization` header
or in a cookie; whatever `validated_user_id` does to a token is a step on a state.

* `tokenFromHeaders`: the token of a request; `cfAccounts`: the provider;
* **`granted_iff`**: it grants the requests with a valid token, and of the publishes those with a
  service token on the list; **`stops_publish_of_unlisted`**: no other publish reaches the stores;
* **`account_ok_iff`**: what requests on accounts and owners are answered.

The parser of cookies is a parameter.
-/

namespace Freighter

namespace CfAuth

/-- The first cookie that is called `CF_Authorization`, of the names and raw values of all. -/
def cookieToken : List (Option (String × Option String)) → Except ℕ (Option String)
  | [] => .ok none
  | none :: _ => .error 400
  | some (name, valueRaw) :: cookies =>
    if name = "CF_Authorization" then .ok valueRaw else cookieToken cookies

/-- `token_from_headers`; `splitParse` is the parser of cookies, which may fail at each. -/
def tokenFromHeaders (splitParse : String → List (Option (String × Option String)))
    (headers : HeaderMap) : Except ℕ (Option String) :=
  match Routes.defaultTokenFromHeaders headers with
  | .error code => .error code
  | .ok (some res) => .ok (some ((stripPrefix "CF_Authorization=" res).getD res))
  | .ok none =>
    match headers.lookup "cookie" with
    | none => .ok none
    | some value =>
      match Server.headerToStr value with
      | none => .error 400
      | some cookies => cookieToken (splitParse cookies)

end CfAuth

namespace Routes

open CfAccess (isServiceToken)
open CfAuth (CfAuthProvider)

variable {α ι σ β : Type}

section Provider

variable (splitParse : String → List (Option (String × Option String)))
  (validated : String → Tx α AuthError String) (p : CfAuthProvider)

/-- A call with a token, by what it makes of the answer of `validated_user_id`. -/
def askCf (f : AuthResult String → AuthResult β) (token : String) : Tx α AuthError β := fun a =>
  (f (validated token a).1, (validated token a).2)

def cfAccounts : AccountProvider α AuthError where
  tokenFromHeaders := CfAuth.tokenFromHeaders splitParse
  publish token _ := askCf validated (CfAuth.publish p) token
  authYank token _ := askCf validated CfAuth.authYank token
  authIndexFetch token _ := askCf validated CfAuth.authIndexFetch token
  authCrateDownload token _ := askCf validated CfAuth.authCrateDownload token
  authViewFullIndex token := askCf validated CfAuth.authViewFullIndex token
  authConfig token := askCf validated CfAuth.authConfig token
  register username a := (CfAuth.register username, a)
  listOwners token _ := askCf validated (fun r => (CfAuth.listOwners p r).map (↑)) token
  addOwners token _ _ := askCf validated CfAuth.addOwners token
  removeOwners token _ _ := askCf validated CfAuth.removeOwners token

end Provider

/-! ## What is granted -/

/-- A request to publish takes a service token on the list. -/
def MayAsk (p : CfAuthProvider) (u : String) : Route → Prop
  | .publish _ => isServiceToken u = true ∧ u ∈ p.publishAccessIds
  | _ => True

section Granted

variable {L : Libs} {X : Extractors} {splitParse : String → List (Option (String × Option String))}
  {validated : String → Tx α AuthError String} {p : CfAuthProvider} {headers : HeaderMap} {a : α}
  {r : Route} {token : String}

/-- What the provider says to a request that it is asked about. -/
theorem check_ok_iff {c : Tx α AuthError Unit}
    (h : c ∈ check L X (cfAccounts splitParse validated p).toAuthProvider token r) :
    (c a).1 = .ok () ↔ ∃ u, (validated token a).1 = .ok u ∧ MayAsk p u r := by
  have hvalid (f : AuthResult String → AuthResult Unit) (hf : f = CfAuth.validOnly) :
      (askCf validated f token a).1 = .ok () ↔ ∃ u, (validated token a).1 = .ok u ∧ True := by
    rw [hf]
    simp only [and_true]
    exact CfAuth.validOnly_ok_iff
  cases r with
  | publish body =>
    obtain ⟨x, -, rfl⟩ := Option.map_eq_some_iff.mp h
    exact CfAuth.publish_ok_iff
  | config =>
    obtain rfl := Option.some.inj h
    exact hvalid _ rfl
  | _ =>
    obtain ⟨x, -, rfl⟩ := Option.map_eq_some_iff.mp h
    exact hvalid _ rfl

/-- **What Cloudflare Access grants.** -/
theorem granted_iff : Granted L X (cfAccounts splitParse validated p).toAuthProvider headers a r ↔
    ∃ token, CfAuth.tokenFromHeaders splitParse headers = .ok (some token) ∧
      (check L X (cfAccounts splitParse validated p).toAuthProvider token r).isSome ∧
      ∃ u, (validated token a).1 = .ok u ∧ MayAsk p u r := by
  refine exists_congr fun token => and_congr_right fun _ => ?_
  constructor
  · rintro ⟨c, hc, hok⟩
    exact ⟨Option.isSome_of_mem hc, (check_ok_iff hc).mp hok⟩
  · rintro ⟨hsome, hu⟩
    obtain ⟨c, hc⟩ := Option.isSome_iff_exists.mp hsome
    exact ⟨c, hc, (check_ok_iff hc).mpr hu⟩

/-- **A publish without a listed service token** fails before it reaches the stores, whatever the
configuration that the provider is made of. -/
theorem stops_publish_of_unlisted {config : CfAuth.Config} (hnew : CfAuth.new config = .ok p)
    {body : Bytes} (h : ∀ token u, CfAuth.tokenFromHeaders splitParse headers = .ok (some token) →
      (validated token a).1 = .ok u → isServiceToken u = true → u ∉ config.authPublishAccessIds)
    (sha256 : Bytes → Checksum) (cfg : ServiceConfig) (I : IndexProvider ι)
    (S : StorageProvider σ) :
    Tx.Stops (handle L sha256 cfg X (cfAccounts splitParse validated p).toAuthProvider I S headers
      (.publish body)) a := by
  obtain ⟨-, -, -, rfl⟩ := CfAuth.new_ok_iff.mp hnew
  refine Tx.Stops.bind (stops_publish (X := X) fun hgranted => ?_) _
  obtain ⟨token, htoken, -, u, hu, hservice, hlisted⟩ := granted_iff.mp hgranted
  exact h token u htoken hu hservice hlisted

end Granted

/-! ## Accounts and owners -/

section Accounts

variable {allowRegistration : Bool} {Y : AccountExtractors}
  {splitParse : String → List (Option (String × Option String))}
  {validated : String → Tx α AuthError String} {p : CfAuthProvider} {headers : HeaderMap} {a : α}

/-- A list of owners, by any provider. -/
theorem listOwners_ok_iff {A : AccountProvider α AuthError} {path : String}
    {users : Multiset ListedOwner} :
    (Routes.listOwners Y A headers path a).1 = .ok users ↔
      ∃ name, Y.name path = .ok name ∧ ∃ token, A.tokenFromHeaders headers = .ok (some token) ∧
        (A.listOwners token name a).1 = .ok users := by
  unfold Routes.listOwners extract
  simp only [Tx.fst_bind_eq_ok, Tx.lift, Tx.mapError_apply, Tx.mapError_ok_iff, token_ok_iff]

/-- A change of owners, by the call of any provider. -/
theorem changeOwners_ok_iff {A : AccountProvider α AuthError}
    {call : String → List String → String → Tx α AuthError Unit} {msg path : String}
    {body : Bytes} {answer : String} :
    (changeOwners Y A headers call msg path body a).1 = .ok answer ↔
      ∃ name, Y.name path = .ok name ∧ ∃ users, Y.owners body = .ok users ∧
        ∃ token, A.tokenFromHeaders headers = .ok (some token) ∧
          (call token users name a).1 = .ok () ∧ msg = answer := by
  unfold changeOwners extract extractBody
  simp only [Tx.fst_bind_eq_ok, Tx.lift, Tx.mapError_apply, Tx.mapError_ok_iff, token_ok_iff,
    Tx.answer, Except.ok.injEq, Unique.exists_iff, PUnit.default_eq_unit]

/-- What is answered to a request that can be read, if its token is valid. Owners are not kept: the
team is always the owner, so that owners can be added and cannot be removed. -/
def AnswerToValid (Y : AccountExtractors) (p : CfAuthProvider) (answer : AccountAnswer) :
    AccountRoute → Prop
  | .register _ | .removeOwners _ _ => False
  | .listOwners path =>
    (∃ name, Y.name path = .ok name) ∧ answer = .owners {⟨0, p.teamBaseUrl, none⟩}
  | .addOwners path body =>
    (∃ name, Y.name path = .ok name) ∧ (∃ users, Y.owners body = .ok users) ∧
      answer = .changed "owners successfully added"

/-- **What requests on accounts and owners are answered.** -/
theorem account_ok_iff {route : AccountRoute} {answer : AccountAnswer} :
    (route.handle allowRegistration Y (cfAccounts splitParse validated p) headers a).1 =
        .ok answer ↔
      AnswerToValid Y p answer route ∧
        ∃ token, CfAuth.tokenFromHeaders splitParse headers = .ok (some token) ∧
          ∃ u, (validated token a).1 = .ok u := by
  cases route with
  | register form =>
    refine iff_of_false (fun h => ?_) And.left
    obtain ⟨t, ht, -⟩ := Tx.fst_bind_eq_ok.mp h
    obtain ⟨username, -, hregister⟩ := Tx.fst_bind_eq_ok.mp ht
    split_ifs at hregister <;> cases hregister
  | listOwners path =>
    have hteam (token name : String) (users : Multiset ListedOwner) :
        ((cfAccounts splitParse validated p).listOwners token name a).1 = .ok users ↔
          (∃ u, (validated token a).1 = .ok u) ∧ users = {⟨0, p.teamBaseUrl, none⟩} := by
      change ((CfAuth.listOwners p (validated token a).1).map _ : AuthResult _) = _ ↔ _
      cases (validated token a).1 with
      | error e => simp [CfAuth.listOwners, Except.map]
      | ok u => simp [CfAuth.listOwners, Except.map, eq_comm]
    simp only [AccountRoute.handle, Tx.fst_map_eq_ok, listOwners_ok_iff, hteam]
    constructor
    · rintro ⟨_, ⟨name, hname, token, htoken, hvalid, rfl⟩, rfl⟩
      exact ⟨⟨⟨name, hname⟩, rfl⟩, token, htoken, hvalid⟩
    · rintro ⟨⟨⟨name, hname⟩, rfl⟩, token, htoken, hvalid⟩
      exact ⟨_, ⟨name, hname, token, htoken, hvalid, rfl⟩, rfl⟩
  | addOwners path body =>
    have hvalid (token name : String) (users : List String) :
        ((cfAccounts splitParse validated p).addOwners token users name a).1 = .ok () ↔
          ∃ u, (validated token a).1 = .ok u := CfAuth.validOnly_ok_iff
    simp only [AccountRoute.handle, Tx.fst_map_eq_ok, Routes.addOwners, changeOwners_ok_iff,
      hvalid]
    constructor
    · rintro ⟨_, ⟨name, hname, users, husers, token, htoken, hu, rfl⟩, rfl⟩
      exact ⟨⟨⟨name, hname⟩, ⟨users, husers⟩, rfl⟩, token, htoken, hu⟩
    · rintro ⟨⟨⟨name, hname⟩, ⟨users, husers⟩, rfl⟩, token, htoken, hu⟩
      exact ⟨_, ⟨name, hname, users, husers, token, htoken, hu, rfl⟩, rfl⟩
  | removeOwners path body =>
    refine iff_of_false (fun h => ?_) And.left
    obtain ⟨msg, hmsg, -⟩ := Tx.fst_bind_eq_ok.mp h
    obtain ⟨name, -, users, -, token, -, hremove, -⟩ := changeOwners_ok_iff.mp hmsg
    exact CfAuth.removeOwners_ne_ok hremove

end Accounts

end Routes

end Freighter
