import Freighter.Auth.Model

/-!
# What a call can do

* `Resolves`, `Present`, `Owns`: what a state says about tokens and crates.
* `ensureAuthorizedForCrate_ok`: who passes the check.
* `Change`: every way in which a call changes the tables and the file, with its guard;
  **`call_cases`**: a call returns an error and changes nothing, or makes one of these changes.
-/

namespace Freighter

namespace FsAuth

variable {hashToken : BareToken → HashedToken} {io : Io} {p p' : FsAuthProvider}

/-! ## What a state says -/

/-- `tokenStr` is a token of `login`. -/
def Resolves (hashToken : BareToken → HashedToken) (p : FsAuthProvider)
    (tokenStr login : String) : Prop :=
  ∃ token o, tokenFromStr hashToken tokenStr = .ok token ∧ ownersMut {} p = .ok o ∧
    o.tokenOwners.lookup token = some login

/-- The crate is in `crate_owners`. -/
def Present (p : FsAuthProvider) (crateName : String) : Prop :=
  ∃ o, ownersMut {} p = .ok o ∧ crateName ∈ o.crateOwners

/-- The login is in `crate_owners[crateName]`. -/
def Owns (p : FsAuthProvider) (crateName login : String) : Prop :=
  ∃ o logins, ownersMut {} p = .ok o ∧ o.crateOwners.lookup crateName = some logins ∧
    login ∈ logins

theorem present_iff {o : Owners} {crateName : String} (ho : ownersMut {} p = .ok o) :
    Present p crateName ↔ crateName ∈ o.crateOwners := by
  constructor
  · rintro ⟨o', ho', h⟩
    cases ho.symm.trans ho'
    exact h
  · exact fun h => ⟨o, ho, h⟩

theorem Owns.present {crateName login : String} (h : Owns p crateName login) :
    Present p crateName := by
  obtain ⟨o, logins, ho, hl, -⟩ := h
  exact ⟨o, ho, AList.lookup_isSome.mp (by rw [hl]; rfl)⟩

/-- A read that fails is the only way in which the file system keeps the tables away. -/
theorem ownersMut_ok {o : Owners} (h : ownersMut io p = .ok o) : ownersMut {} p = .ok o := by
  unfold ownersMut at h ⊢
  cases hp : p.owners with
  | some o' => rw [hp] at h; exact h
  | none =>
    rw [hp] at h
    unfold loadOwnersFile at h ⊢
    by_cases hr : io.readFails = true
    · rw [if_pos hr] at h; cases h
    · rw [if_neg hr] at h
      exact h

/-! ## The checks -/

theorem loginForToken_ok {o : Owners} {token : HashedToken} {login : String} :
    o.loginForToken token = .ok login ↔ o.tokenOwners.lookup token = some login := by
  unfold Owners.loginForToken
  cases o.tokenOwners.lookup token <;> simp

/-- **Who passes the check**: a token whose login is among the owners of the crate. -/
theorem ensureAuthorizedForCrate_ok {o : Owners} {token : HashedToken} {crateName : String} :
    o.ensureAuthorizedForCrate token crateName = .ok () ↔
      ∃ logins login, o.crateOwners.lookup crateName = some logins ∧
        o.tokenOwners.lookup token = some login ∧ login ∈ logins := by
  unfold Owners.ensureAuthorizedForCrate
  cases hc : o.crateOwners.lookup crateName with
  | none => simp
  | some logins =>
    cases hl : o.loginForToken token with
    | error e =>
      have hn : ∀ login, o.tokenOwners.lookup token ≠ some login := fun login h => by
        rw [loginForToken_ok.mpr h] at hl; cases hl
      simp [hn]
    | ok login =>
      rw [loginForToken_ok] at hl
      by_cases hm : login ∈ logins <;> simp [hl, hm]

@[simp] theorem tables_fillOwnerTokens (o : Owners) : o.fillOwnerTokens.tables = o.tables := by
  unfold Owners.fillOwnerTokens; split_ifs <;> rfl

@[simp] theorem tokenOwners_fillOwnerTokens (o : Owners) :
    o.fillOwnerTokens.tokenOwners = o.tokenOwners :=
  congrArg Prod.fst (tables_fillOwnerTokens o)

@[simp] theorem crateOwners_fillOwnerTokens (o : Owners) :
    o.fillOwnerTokens.crateOwners = o.crateOwners :=
  congrArg Prod.snd (tables_fillOwnerTokens o)

/-! ## The changes -/

variable (hashToken io) in
/-- The changes that a call can make to the tables `o` and the file. -/
inductive Change (file : OwnersJson) (o : Owners) : Call → Owners → OwnersJson → Prop
  | same (c : Call) : Change file o c o file
  | refused {username : String} {bareToken : BareToken}
      (h : username ∈ o.fillOwnerTokens.ownerTokens) :
      Change file o (.register username bareToken) o.fillOwnerTokens file
  | registered {username : String} {bareToken : BareToken} {o' : Owners}
      (h : username ∉ o.fillOwnerTokens.ownerTokens)
      (ho : o' = { o with
        ownerTokens := o.fillOwnerTokens.ownerTokens.insert username (hashToken bareToken)
        tokenOwners := o.tokenOwners.insert (hashToken bareToken) username }) :
      Change file o (.register username bareToken) o' (syncOwners io o' file).2
  | claimed {tokenStr crateName login : String} {token : HashedToken}
      (ht : tokenFromStr hashToken tokenStr = .ok token)
      (hl : o.tokenOwners.lookup token = some login) (hc : crateName ∉ o.crateOwners) :
      Change file o (.publish tokenStr crateName)
        { o with crateOwners := o.crateOwners.insert crateName {login} } file
  | added {tokenStr crateName login : String} {users : List String} {token : HashedToken}
      {logins : Finset String} {o' : Owners} (ht : tokenFromStr hashToken tokenStr = .ok token)
      (hl : o.tokenOwners.lookup token = some login)
      (hc : o.crateOwners.lookup crateName = some logins) (hm : login ∈ logins)
      (ho : o' = { o with
        crateOwners := o.crateOwners.insert crateName (logins ∪ users.toFinset) }) :
      Change file o (.addOwners tokenStr users crateName) o' (syncOwners io o' file).2
  | removed {tokenStr crateName login : String} {users : List String} {token : HashedToken}
      {logins : Finset String} {o' : Owners} (ht : tokenFromStr hashToken tokenStr = .ok token)
      (hl : o.tokenOwners.lookup token = some login)
      (hc : o.crateOwners.lookup crateName = some logins) (hm : login ∈ logins)
      (ho : o' = { o with
        crateOwners := o.crateOwners.insert crateName (removeLoop logins users).1 }) :
      Change file o (.removeOwners tokenStr users crateName) o' (syncOwners io o' file).2

/-- The outcome of a call: an error that leaves everything as it was, or a change. -/
def Outcome (hashToken : BareToken → HashedToken) (io : Io) (p : FsAuthProvider) (c : Call)
    (r : AuthResult Reply) (p' : FsAuthProvider) : Prop :=
  ((∃ e, r = .error e) ∧ p' = p) ∨
    ∃ o o' file, ownersMut io p = .ok o ∧ Change hashToken io p.ownersJson o c o' file ∧
      p' = ⟨some o', file⟩

/-- The rest of a call, run on the tables. -/
theorem outcome_withOwners {α : Type} {c : Call} {f : AuthResult α → AuthResult Reply}
    (hf : ∀ e, f (.error e) = .error e) {body : Owners → AuthResult α × Owners × OwnersJson}
    (hbody : ∀ o, Change hashToken io p.ownersJson o c (body o).2.1 (body o).2.2) :
    Outcome hashToken io p c (f (withOwners io p body).1) (withOwners io p body).2 := by
  unfold withOwners
  cases ho : ownersMut io p with
  | error e => exact Or.inl ⟨⟨e, hf e⟩, rfl⟩
  | ok o => exact Or.inr ⟨o, _, _, ho, hbody o, rfl⟩

/-- The rest of a call that resolves a token first. -/
theorem outcome_resolved {c : Call} {tokenStr : String}
    {body : HashedToken → Owners → AuthResult Unit × Owners × OwnersJson}
    (hbody : ∀ token o, tokenFromStr hashToken tokenStr = .ok token →
      Change hashToken io p.ownersJson o c (body token o).2.1 (body token o).2.2) :
    let r : AuthResult Unit × FsAuthProvider :=
      match tokenFromStr hashToken tokenStr with
      | .error e => (.error e, p)
      | .ok hashedToken => withOwners io p (body hashedToken)
    Outcome hashToken io p c (r.1.map fun _ => .done) r.2 := by
  cases ht : tokenFromStr hashToken tokenStr with
  | error e => exact Or.inl ⟨⟨e, rfl⟩, rfl⟩
  | ok token => exact outcome_withOwners (fun _ => rfl) fun o => hbody token o ht

theorem change_checked {crateName : String} {token : HashedToken} {o : Owners} {c : Call}
    {file : OwnersJson} {k : Finset String → AuthResult Unit × Owners × OwnersJson}
    (h : ∀ logins login, o.crateOwners.lookup crateName = some logins →
      o.tokenOwners.lookup token = some login → login ∈ logins →
        Change hashToken io file o c (k logins).2.1 (k logins).2.2) :
    let r : AuthResult Unit × Owners × OwnersJson :=
      match o.ensureAuthorizedForCrate token crateName with
      | .error e => (.error e, o, file)
      | .ok () =>
        match o.crateOwners.lookup crateName with
        | none => (.error .crateNotFound, o, file)
        | some logins => k logins
    Change hashToken io file o c r.2.1 r.2.2 := by
  cases he : o.ensureAuthorizedForCrate token crateName with
  | error e => exact .same c
  | ok _ =>
    obtain ⟨logins, login, hc, hl, hm⟩ := ensureAuthorizedForCrate_ok.mp he
    simp only [hc]
    exact h logins login hc hl hm

variable (hashToken) in
/-- **What a call can do.** -/
theorem call_cases (p : FsAuthProvider) (io : Io) (c : Call) :
    Outcome hashToken io p c (call hashToken p io c).1 (call hashToken p io c).2 := by
  cases c with
  | register username bareToken =>
    refine outcome_withOwners (f := (·.map Reply.token)) (fun _ => rfl) fun o => ?_
    unfold Owners.register
    by_cases h : username ∈ o.fillOwnerTokens.ownerTokens
    · simp only [h, if_true]
      exact .refused h
    · simp only [h, if_false]
      refine .registered h ?_
      simp only [tokenOwners_fillOwnerTokens, crateOwners_fillOwnerTokens]
  | listOwners crateName =>
    refine outcome_withOwners (f := (·.map Reply.logins)) (fun _ => rfl) fun o => ?_
    cases o.crateOwners.lookup crateName <;> exact .same _
  | addOwners tokenStr users crateName =>
    refine outcome_resolved fun token o ht => ?_
    exact change_checked fun logins login hc hl hm => .added ht hl hc hm rfl
  | removeOwners tokenStr users crateName =>
    refine outcome_resolved fun token o ht => ?_
    exact change_checked fun logins login hc hl hm => .removed ht hl hc hm rfl
  | publish tokenStr crateName =>
    refine outcome_resolved fun token o ht => ?_
    unfold Owners.claim
    by_cases hc : crateName ∈ o.crateOwners
    · simp only [hc, if_true]
      exact .same _
    · simp only [hc, if_false]
      cases hl : o.loginForToken token with
      | error e => exact .same _
      | ok login => exact .claimed ht (loginForToken_ok.mp hl) hc
  | authYank tokenStr crateName =>
    refine outcome_resolved fun token o _ => ?_
    exact .same _
  | ensureValidToken tokenStr =>
    refine outcome_resolved fun token o _ => ?_
    exact .same _

/-- The claim of a crate without owners. -/
theorem publish_claim {tokenStr crateName login : String} {token : HashedToken} {o : Owners}
    (ht : tokenFromStr hashToken tokenStr = .ok token) (ho : ownersMut io p = .ok o)
    (hl : o.tokenOwners.lookup token = some login) (hc : crateName ∉ o.crateOwners) :
    publish hashToken io p tokenStr crateName =
      (.ok (), ⟨some { o with crateOwners := o.crateOwners.insert crateName {login} },
        p.ownersJson⟩) := by
  have hlogin : o.loginForToken token = .ok login := loginForToken_ok.mpr hl
  have hauth : ({ o with crateOwners := o.crateOwners.insert crateName {login} } :
      Owners).ensureAuthorizedForCrate token crateName = .ok () :=
    ensureAuthorizedForCrate_ok.mpr
      ⟨{login}, login, AList.lookup_insert _, hl, Finset.mem_singleton_self _⟩
  simp only [publish, ht, withOwners, ho, Owners.claim, if_neg hc, hlogin, Except.map, hauth]

/-- A `publish` that claims nothing leaves the tables and the file as they are. -/
theorem publish_keeps {tokenStr crateName : String}
    (h : ∀ o login, ownersMut io p = .ok o → Resolves hashToken p tokenStr login →
      Present p crateName) :
    ownersMut {} (publish hashToken io p tokenStr crateName).2 = ownersMut {} p ∧
      (publish hashToken io p tokenStr crateName).2.ownersJson = p.ownersJson := by
  have hcall : (call hashToken p io (.publish tokenStr crateName)).2 =
      (publish hashToken io p tokenStr crateName).2 := rfl
  rw [← hcall]
  rcases call_cases hashToken p io (.publish tokenStr crateName) with ⟨-, hp⟩ |
    ⟨o, o', file, ho, hch, hp⟩
  · rw [hp]
    exact ⟨rfl, rfl⟩
  · rw [hp]
    cases hch with
    | same => exact ⟨(ownersMut_ok ho).symm, rfl⟩
    | @claimed _ _ login token ht hl hn =>
      have := h o login ho ⟨token, o, ht, ownersMut_ok ho, hl⟩
      exact absurd ((present_iff (ownersMut_ok ho)).mp this) hn

/-- Whoever has no token yet is registered, and gets the token unless the save fails. -/
theorem register_passed {o : Owners} (ho : ownersMut io p = .ok o) {username : String}
    (h : username ∉ o.fillOwnerTokens.ownerTokens) (bareToken : BareToken) :
    (register hashToken io p username bareToken).1 =
      if io.write = .failed then .error .serviceError else .ok (tokenToStr bareToken) := by
  simp only [register, withOwners, ho, Owners.register, if_neg h, syncOwners]
  cases io.write <;> rfl

section Passed

variable {tokenStr crateName login : String} {token : HashedToken} {o : Owners}
  {logins : Finset String} (ht : tokenFromStr hashToken tokenStr = .ok token)
  (ho : ownersMut io p = .ok o) (hl : o.tokenOwners.lookup token = some login)
  (hc : o.crateOwners.lookup crateName = some logins) (hm : login ∈ logins)

include ht ho hl hc hm

/-- Who passes the check adds owners. -/
theorem addOwners_eq (users : List String) :
    addOwners hashToken io p tokenStr users crateName =
      let o' := { o with
        crateOwners := o.crateOwners.insert crateName (logins ∪ users.toFinset) }
      ((syncOwners io o' p.ownersJson).1, ⟨some o', (syncOwners io o' p.ownersJson).2⟩) := by
  have hauth := ensureAuthorizedForCrate_ok.mpr ⟨logins, login, hc, hl, hm⟩
  simp only [addOwners, ht, withOwners, ho, hauth, hc]

/-- And is served unless the save fails. -/
theorem addOwners_passed (users : List String) :
    (addOwners hashToken io p tokenStr users crateName).1 =
      if io.write = .failed then .error .serviceError else .ok () := by
  rw [addOwners_eq ht ho hl hc hm]
  unfold syncOwners
  cases io.write <;> rfl

end Passed

/-- A `publish` that claims the crate makes it present. -/
theorem publish_claims {tokenStr crateName login : String} {o : Owners}
    (ho : ownersMut io p = .ok o) (hr : Resolves hashToken p tokenStr login)
    (hn : ¬ Present p crateName) :
    (publish hashToken io p tokenStr crateName).1 = .ok () ∧
      Present (publish hashToken io p tokenStr crateName).2 crateName := by
  obtain ⟨token, o', ht, ho', hl⟩ := hr
  cases (ownersMut_ok ho).symm.trans ho'
  rw [publish_claim ht ho hl (mt (present_iff ho').mpr hn)]
  exact ⟨rfl, _, rfl, (AList.mem_insert _).mpr (Or.inl rfl)⟩

end FsAuth

end Freighter
