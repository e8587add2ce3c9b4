import Freighter.Auth.CfAccess
import Mathlib.Data.Finset.Insert

/-!
# Auth with Cloudflare Access

`CfAuthProvider` lets everyone do everything who has a valid token, but for publishing.

* The calls, each a function of what `validated_user_id` answers; `validOnly_ok_iff`: what every
  valid token may do; `new_ok_iff`: the settings that are accepted.
* `IsPerson`, `IsService`: the two kinds of identities; **`userId_ok_iff`**: claims have one of them
  or none.
* `Validates`: a client's token is decoded to these claims; **`only_service_tokens_publish`**: only
  a service token on the list can publish.
-/

namespace Freighter

namespace CfAuth

open CfAccess (Claims JsonWebToken State userId isServiceToken)

/-! ## The calls -/

structure Config where
  authTeamBaseUrl : String
  authAudience : String
  authPublishAccessIds : Finset String

structure CfAuthProvider where
  teamBaseUrl : String
  publishAccessIds : Finset String

/-- `CfAuthProvider::new`, with the checks of `CfAccess::new`. -/
def new (config : Config) : AuthResult CfAuthProvider :=
  if config.authTeamBaseUrl.utf8ByteSize < 13 ||
      !"https://".toList.isPrefixOf config.authTeamBaseUrl.toList || config.authAudience = "" then
    .error .serviceError
  else .ok ⟨config.authTeamBaseUrl, config.authPublishAccessIds⟩

def register (_username : String) : AuthResult String := .error .unimplemented

variable (p : CfAuthProvider) (validated : AuthResult String)

/-- What every valid token may do. -/
def validOnly : AuthResult Unit := validated.map fun _ => ()

def listOwners : AuthResult (List ListedOwner) := validated.map fun _ => [⟨0, p.teamBaseUrl, none⟩]

/-- Everyone is an owner, so it's technically a no-op. -/
def addOwners : AuthResult Unit := validOnly validated

def removeOwners : AuthResult Unit :=
  match validated with
  | .error e => .error e
  | .ok _ => .error .unimplemented

/-- Only CI, using a service token, is allowed to publish. -/
def publish : AuthResult Unit :=
  match validated with
  | .error e => .error e
  | .ok id =>
    if isServiceToken id && id ∈ p.publishAccessIds then .ok () else .error .forbidden

def authYank : AuthResult Unit := validOnly validated

def authConfig : AuthResult Unit := validOnly validated

def authIndexFetch : AuthResult Unit := validOnly validated

def authCrateDownload : AuthResult Unit := validOnly validated

def authViewFullIndex : AuthResult Unit := validOnly validated

/-! ## Identities -/

/-- The claims name the person `u`. -/
def IsPerson (claims : Claims) (u : String) : Prop :=
  claims.sub = some u ∧ u ≠ "" ∧ ¬ ".access".toList <:+ u.toList

/-- The claims name the service token `u`. -/
def IsService (claims : Claims) (u : String) : Prop :=
  (claims.sub = none ∨ claims.sub = some "") ∧ claims.commonName = some u ∧
    ".access".toList <:+ u.toList

section Identities

variable {p : CfAuthProvider} {validated : AuthResult String} {claims : Claims} {u : String}

theorem isServiceToken_iff : isServiceToken u = true ↔ ".access".toList <:+ u.toList :=
  List.isSuffixOf_iff_suffix

/-- The identity of a token with a `sub`. -/
theorem userId_of_sub {sub : String} (hsub : claims.sub = some sub) (hne : sub ≠ "") :
    userId claims = if isServiceToken sub then .error .serviceError else .ok sub := by
  have hfilter : claims.sub.filter (· ≠ "") = some sub := by
    rw [hsub]
    simp [hne]
  unfold userId
  simp only [hfilter, Option.some_or, Option.isNone_some]
  cases isServiceToken sub <;> rfl

/-- The identity of a token without one. -/
theorem userId_of_no_sub (hsub : claims.sub = none ∨ claims.sub = some "") :
    userId claims =
      match claims.commonName with
      | none => .error .serviceError
      | some name => if isServiceToken name then .ok name else .error .serviceError := by
  have hfilter : claims.sub.filter (· ≠ "") = none := by
    rcases hsub with h | h <;> rw [h] <;> simp
  unfold userId
  simp only [hfilter, Option.none_or, Option.isNone_none]
  cases claims.commonName with
  | none => rfl
  | some name => cases h : isServiceToken name <;> simp [h]

/-- **Claims name a person or a service token**, or they are refused. -/
theorem userId_ok_iff : userId claims = .ok u ↔ IsPerson claims u ∨ IsService claims u := by
  unfold IsPerson IsService
  rw [← isServiceToken_iff]
  by_cases hsub : claims.sub = none ∨ claims.sub = some ""
  · have hno : ¬ (claims.sub = some u ∧ u ≠ "" ∧ ¬ isServiceToken u = true) := by
      rintro ⟨hu, hne, -⟩
      rcases hsub with h | h
      · exact absurd (h.symm.trans hu) (by simp)
      · exact hne (Option.some.inj (h.symm.trans hu)).symm
    rw [userId_of_no_sub hsub, or_iff_right hno, and_iff_right hsub]
    cases claims.commonName with
    | none => simp
    | some name =>
      by_cases h : isServiceToken name = true
      · simp only [h, if_true, Except.ok.injEq, Option.some.injEq]
        refine ⟨fun hu => ⟨hu, ?_⟩, And.left⟩
        rw [← hu]
        exact h
      · simp only [h, if_false, reduceCtorEq, Option.some.injEq, false_iff, not_and,
          Bool.false_eq_true]
        rintro rfl
        exact h
  · obtain ⟨sub, hsome⟩ : ∃ sub, claims.sub = some sub :=
      Option.ne_none_iff_exists'.mp fun h => hsub (Or.inl h)
    have hne : sub ≠ "" := fun h => hsub (Or.inr (by rw [hsome, h]))
    rw [userId_of_sub hsome hne, or_iff_left fun h => hsub h.1, hsome, Option.some.injEq]
    by_cases h : isServiceToken sub = true
    · rw [if_pos h]
      constructor
      · exact fun hu => absurd hu (by simp)
      · rintro ⟨rfl, -, hperson⟩
        exact absurd h hperson
    · rw [if_neg h, Except.ok.injEq]
      refine ⟨fun hu => ⟨hu, ?_⟩, And.left⟩
      rw [← hu]
      exact ⟨hne, h⟩

/-- **What every valid token may do**, and only that. -/
theorem validOnly_ok_iff : validOnly validated = .ok () ↔ ∃ u, validated = .ok u := by
  cases validated with
  | error e => simp [validOnly, Except.map]
  | ok u => simp [validOnly, Except.map]

theorem removeOwners_ne_ok : removeOwners validated ≠ .ok () := by
  cases validated <;> simp [removeOwners]

/-- `new` keeps the settings that it accepts. -/
theorem new_ok_iff {config : Config} : new config = .ok p ↔
    13 ≤ config.authTeamBaseUrl.utf8ByteSize ∧
      "https://".toList <+: config.authTeamBaseUrl.toList ∧ config.authAudience ≠ "" ∧
      p = ⟨config.authTeamBaseUrl, config.authPublishAccessIds⟩ := by
  unfold new
  rw [← List.isPrefixOf_iff_prefix]
  split_ifs with h
  · simp only [Bool.or_eq_true, decide_eq_true_eq, Bool.not_eq_true'] at h
    simp only [false_iff]
    rintro ⟨hlength, hscheme, haudience, -⟩
    rcases h with (h | h) | h
    · omega
    · exact absurd (h.symm.trans hscheme) (by simp)
    · exact haudience h
  · simp only [Bool.or_eq_true, decide_eq_true_eq, Bool.not_eq_true', not_or, not_lt,
      Bool.not_eq_false] at h
    obtain ⟨⟨hlength, hscheme⟩, haudience⟩ := h
    simp only [Except.ok.injEq, hlength, hscheme, haudience, ne_eq, not_false_iff, true_and]
    exact eq_comm

theorem publish_ok_iff : publish p validated = .ok () ↔
    ∃ u, validated = .ok u ∧ isServiceToken u = true ∧ u ∈ p.publishAccessIds := by
  cases validated with
  | error e => simp [publish]
  | ok id => simp [publish]

/-- **Who can publish**: a service token on the list. -/
theorem publish_userId_iff : publish p (userId claims) = .ok () ↔
    ∃ u, IsService claims u ∧ u ∈ p.publishAccessIds := by
  rw [publish_ok_iff]
  refine exists_congr fun u => ?_
  rw [userId_ok_iff]
  constructor
  · rintro ⟨hperson | hservice, hsuffix, hmem⟩
    · exact absurd (isServiceToken_iff.mp hsuffix) hperson.2.2
    · exact ⟨hservice, hmem⟩
  · rintro ⟨hservice, hmem⟩
    exact ⟨Or.inr hservice, isServiceToken_iff.mpr hservice.2.2, hmem⟩

end Identities

/-! ## Tokens -/

section Tokens

variable {ι K : Type} [DecidableEq ι] (J : JsonWebToken K)

/-- The client's token passes validation with these claims, and `validated_user_id` answers `r`. -/
structure Validates (s : State ι K) (i : ι) (claims : Claims) (r : AuthResult String) : Prop where
  decoded : ∃ token kid key, s.pc i = .validating token kid ∧ s.keys.lookup kid = some key ∧
    J.decode s.clock token key = some claims
  answered : ∃ s', CfAccess.step J s (.look i) = some s' ∧ s'.pc i = .done (r.map some)

variable {J} {s s' : State ι K} {i : ι} {claims : Claims} {r : AuthResult String} {u : String}

theorem done_of_look (h : CfAccess.step J s (.look i) = some s')
    {r : AuthResult (Option String)} (hr : s'.pc i = .done r) :
    ∃ token kid, s.pc i = .validating token kid ∧
      r = (CfAccess.validate J s.keys s.clock token kid).map some := by
  obtain ⟨token, kid, hpc, -, rfl | ⟨-, rfl⟩⟩ := CfAccess.look_cases h
  · simp [State.move] at hr
  · refine ⟨token, kid, hpc, ?_⟩
    simp only [State.move, Function.update_self, CfAccess.Pc.done.injEq] at hr
    exact hr.symm

theorem map_some_injective {α : Type} : ∀ {r r' : AuthResult α},
    (r.map some : AuthResult (Option α)) = r'.map some → r = r'
  | .error _, .error _, h => by
    cases h
    rfl
  | .ok _, .ok _, h => by
    cases h
    rfl
  | .error _, .ok _, h => by cases h
  | .ok _, .error _, h => by cases h

/-- The answer is what is made of the claims. -/
theorem Validates.eq (h : Validates J s i claims r) : r = userId claims := by
  obtain ⟨token, kid, key, hpc, hkey, hdecode⟩ := h.decoded
  obtain ⟨s', hstep, hdone⟩ := h.answered
  obtain ⟨token', kid', hpc', hr⟩ := done_of_look hstep hdone
  rw [hpc] at hpc'
  cases hpc'
  have hvalidate : CfAccess.validate J s.keys s.clock token kid = userId claims := by
    unfold CfAccess.validate
    simp only [hkey, hdecode]
  rw [hvalidate] at hr
  exact map_some_injective hr

/-- A user is let through only with a token that passes validation. -/
theorem exists_validates (h : CfAccess.step J s (.look i) = some s')
    (hu : s'.pc i = .done (.ok (some u))) : ∃ claims, Validates J s i claims (.ok u) := by
  obtain ⟨token, kid, hpc, hr⟩ := done_of_look h hu
  have hok : (Except.ok u : AuthResult String).map some =
      (CfAccess.validate J s.keys s.clock token kid).map some := hr
  have hvalid : CfAccess.validate J s.keys s.clock token kid = .ok u :=
    (map_some_injective hok).symm
  obtain ⟨key, hkey, hdecode⟩ := CfAccess.validate_ok hvalid
  obtain ⟨claims, hclaims⟩ := Option.isSome_iff_exists.mp hdecode
  exact ⟨claims, ⟨token, kid, key, hpc, hkey, hclaims⟩, s', h, hu⟩

/-- **Only listed service tokens can publish.** Whatever the claims of a token that passes
validation and whatever the list, `validated_user_id` answers with a person or a service token,
`publish` lets through exactly the service tokens on the list, and so nobody who has a `sub`. -/
theorem only_service_tokens_publish (p : CfAuthProvider) (h : Validates J s i claims r) :
    (∀ u, r = .ok u → IsPerson claims u ∨ IsService claims u) ∧
    (publish p r = .ok () ↔ ∃ u, IsService claims u ∧ u ∈ p.publishAccessIds) ∧
    ∀ sub, claims.sub = some sub → sub ≠ "" → publish p r ≠ .ok () := by
  rw [h.eq]
  refine ⟨fun u => userId_ok_iff.mp, publish_userId_iff, fun sub hsub hne hok => ?_⟩
  obtain ⟨u, ⟨hnone, -⟩, -⟩ := publish_userId_iff.mp hok
  rw [hsub] at hnone
  rcases hnone with hnone | hnone
  · cases hnone
  · cases hnone
    exact hne rfl

end Tokens

/-- Tokens of the service token `ci.access`. -/
def ciToken : JsonWebToken Unit where
  decodeHeader _ := some (some "kid")
  decode _ _ _ := some ⟨some "ci.access", some ""⟩

/-- The service token publishes if it is on the list. -/
theorem ci_publishes : ∃ s claims r,
    Run.exec (CfAccess.step ciToken) CfAccess.initial CfAccess.fetch = some s ∧
      Validates ciToken s true claims r ∧
      publish ⟨"https://team.cloudflareaccess.com", {"ci.access"}⟩ r = .ok () := by
  have h : (Run.exec (CfAccess.step ciToken) CfAccess.initial CfAccess.fetch).any (fun s =>
      decide (s.pc true = .validating "token" "kid") &&
      decide (s.keys.lookup "kid" = some ()) &&
      (CfAccess.step ciToken s (.look true)).any (fun s' =>
        decide (s'.pc true = .done (.ok (some "ci.access"))))) = true := by
    decide +kernel
  simp only [Option.any_eq_true, Bool.and_eq_true, decide_eq_true_eq] at h
  obtain ⟨s, hs, ⟨hpc, hkey⟩, s', hlook, hdone⟩ := h
  have hvalidates : Validates ciToken s true ⟨some "ci.access", some ""⟩ (.ok "ci.access") :=
    ⟨⟨"token", "kid", (), hpc, hkey, rfl⟩, s', hlook, hdone⟩
  refine ⟨s, _, _, hs, hvalidates, (only_service_tokens_publish _ hvalidates).2.1.mpr ?_⟩
  exact ⟨"ci.access", ⟨Or.inr rfl, rfl, by decide⟩, Finset.mem_singleton_self _⟩

end CfAuth

end Freighter
