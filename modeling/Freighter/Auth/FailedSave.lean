import Freighter.Auth.Removal

/-!
# A save that fails

`register`, `add_owners` and `remove_owners` change the tables in memory and then save them. When
the save fails the change stays.

* `InSync`: memory and file have the same tables; `Call.Saves`: the calls that reach the save.
* `Unharmed`: a call that fails leaves the state as it was.
* **`failedSave_iff`**: the only such calls are those that have nothing to change.
-/

namespace Freighter

namespace FsAuth

variable (hashToken : BareToken → HashedToken)

/-! ## States -/

/-- The same tables, with the reverse index as `register` finds it. -/
structure SameTables (o o' : Owners) : Prop where
  tokenOwners : ∀ token, o'.tokenOwners.lookup token = o.tokenOwners.lookup token
  crateOwners : ∀ crateName, o'.crateOwners.lookup crateName = o.crateOwners.lookup crateName
  ownerTokens : ∀ login, o'.fillOwnerTokens.ownerTokens.lookup login =
    o.fillOwnerTokens.ownerTokens.lookup login

/-- The file has the tables in memory. -/
def InSync (p : FsAuthProvider) : Prop :=
  ∃ o f, ownersMut {} p = .ok o ∧ loadOwnersFile {} p = .ok f ∧
    (∀ token, f.tokenOwners.lookup token = o.tokenOwners.lookup token) ∧
    ∀ crateName, f.crateOwners.lookup crateName = o.crateOwners.lookup crateName

/-- The call gets as far as `sync_owners`. -/
def Call.Saves (io : Io) (p : FsAuthProvider) : Call → Prop
  | .register username _ =>
    ∃ o, ownersMut io p = .ok o ∧ username ∉ o.fillOwnerTokens.ownerTokens
  | .addOwners tokenStr _ crateName | .removeOwners tokenStr _ crateName =>
    ∃ o token, ownersMut io p = .ok o ∧ tokenFromStr hashToken tokenStr = .ok token ∧
      o.ensureAuthorizedForCrate token crateName = .ok ()
  | _ => False

/-- The call fails and leaves memory, file and rights as they were, and once the disk works it
answers as it would have answered at first. -/
structure Unharmed (io : Io) (p : FsAuthProvider) (c : Call) : Prop where
  error : ∃ e, (call hashToken p io c).1 = .error e
  memory : ∀ o, ownersMut {} p = .ok o →
    ∃ o', (call hashToken p io c).2.owners = some o' ∧ SameTables o o'
  file : (call hashToken p io c).2.ownersJson = p.ownersJson
  inSync : InSync (call hashToken p io c).2
  owns : ∀ crateName login, Owns (call hashToken p io c).2 crateName login ↔ Owns p crateName login
  resolves : ∀ tokenStr login,
    Resolves hashToken (call hashToken p io c).2 tokenStr login ↔
      Resolves hashToken p tokenStr login
  again : (call hashToken (call hashToken p io c).2 {} c).1 = (call hashToken p {} c).1

/-- There is nothing to change: the users to add are owners, or no user to remove is one, or the
crate has a single owner. -/
def Harmless (p : FsAuthProvider) : Call → Prop
  | .addOwners _ users crateName => ∀ u ∈ users, Owns p crateName u
  | .removeOwners _ users crateName =>
    (∃! login, Owns p crateName login) ∨ ∀ u ∈ users, ¬ Owns p crateName u
  | _ => False

section Save

variable {hashToken} {p : FsAuthProvider} {io : Io} {o o' : Owners}
  {tokenStr crateName login : String} {token : HashedToken} {logins logins' : Finset String}

theorem owns_iff_mem (ho : ownersMut {} p = .ok o)
    (hc : o.crateOwners.lookup crateName = some logins) {u : String} :
    Owns p crateName u ↔ u ∈ logins := by
  constructor
  · rintro ⟨o', l, ho', hl, hu⟩
    cases ho.symm.trans ho'
    cases hc.symm.trans hl
    exact hu
  · exact fun hu => ⟨o, logins, ho, hc, hu⟩

/-- The owners of a crate were replaced by the same owners. -/
theorem sameTables_insert_iff (hc : o.crateOwners.lookup crateName = some logins) :
    SameTables o { o with crateOwners := o.crateOwners.insert crateName logins' } ↔
      logins' = logins := by
  constructor
  · intro h
    have hcrate := h.crateOwners crateName
    simp only [AList.lookup_insert, hc, Option.some.injEq] at hcrate
    exact hcrate
  · rintro rfl
    refine ⟨fun _ => rfl, fun name => ?_, fun l => ?_⟩
    · by_cases hn : name = crateName
      · rw [hn, hc, AList.lookup_insert]
      · rw [AList.lookup_insert_ne hn]
    · unfold Owners.fillOwnerTokens
      split_ifs <;> rfl

/-- What is left of a call that failed and has the tables in memory unchanged. -/
theorem unharmed_of_same {c : Call} {e : AuthError} (hp : InSync p)
    (hcall : call hashToken p io c = (.error e, ⟨some o', p.ownersJson⟩))
    (ho : ownersMut {} p = .ok o) (hsame : SameTables o o')
    (hagain : (call hashToken ⟨some o', p.ownersJson⟩ {} c).1 = (call hashToken p {} c).1) :
    Unharmed hashToken io p c := by
  have hmem : ownersMut {} (⟨some o', p.ownersJson⟩ : FsAuthProvider) = .ok o' := rfl
  refine ⟨⟨e, by rw [hcall]⟩, fun o₁ ho₁ => ?_, by rw [hcall], ?_, fun name l => ?_,
    fun t l => ?_, by rw [hcall]; exact hagain⟩
  · cases ho.symm.trans ho₁
    exact ⟨o', by rw [hcall], hsame⟩
  · obtain ⟨o₁, f, ho₁, hf, htokens, hcrates⟩ := hp
    cases ho.symm.trans ho₁
    rw [hcall]
    refine ⟨o', f, hmem, hf, fun t => ?_, fun name => ?_⟩
    · rw [htokens, hsame.tokenOwners]
    · rw [hcrates, hsame.crateOwners]
  · rw [hcall]
    constructor
    · rintro ⟨o₁, logins, ho₁, hl, hm⟩
      cases hmem.symm.trans ho₁
      exact ⟨o, logins, ho, (hsame.crateOwners name).symm.trans hl, hm⟩
    · rintro ⟨o₁, logins, ho₁, hl, hm⟩
      cases ho.symm.trans ho₁
      exact ⟨o', logins, hmem, (hsame.crateOwners name).trans hl, hm⟩
  · rw [hcall]
    constructor
    · rintro ⟨token, o₁, ht, ho₁, hl⟩
      cases hmem.symm.trans ho₁
      exact ⟨token, o, ht, ho, (hsame.tokenOwners token).symm.trans hl⟩
    · rintro ⟨token, o₁, ht, ho₁, hl⟩
      cases ho.symm.trans ho₁
      exact ⟨token, o', ht, hmem, (hsame.tokenOwners token).trans hl⟩

/-- A call that replaces the owners of a crate and fails to save is harmless iff it replaces them by
themselves. -/
theorem unharmed_insert_iff {c : Call} (reply : Unit → AuthResult Reply) (hp : InSync p)
    (hw : io.write = .failed) (ho : ownersMut io p = .ok o)
    (hc : o.crateOwners.lookup crateName = some logins)
    (hcall : ∀ io' p' o₁, ownersMut io' p' = .ok o₁ → o₁.tokenOwners = o.tokenOwners →
      o₁.crateOwners.lookup crateName = some logins →
      let o₂ := { o₁ with crateOwners := o₁.crateOwners.insert crateName logins' }
      call hashToken p' io' c = ((syncOwners io' o₂ p'.ownersJson).1.bind reply,
        ⟨some o₂, (syncOwners io' o₂ p'.ownersJson).2⟩)) :
    Unharmed hashToken io p c ↔ logins' = logins := by
  have ho' := ownersMut_ok ho
  have hfailed : call hashToken p io c = (.error .serviceError,
      ⟨some { o with crateOwners := o.crateOwners.insert crateName logins' }, p.ownersJson⟩) := by
    rw [hcall io p o ho rfl hc]
    simp only [syncOwners, hw]
    rfl
  constructor
  · intro h
    obtain ⟨o₁, ho₁, hsame⟩ := h.memory o ho'
    rw [hfailed] at ho₁
    cases ho₁
    exact (sameTables_insert_iff hc).mp hsame
  · intro he
    refine unharmed_of_same hp hfailed ho' ((sameTables_insert_iff hc).mpr he) ?_
    -- the call is answered as before, from the same owners
    have hagain := hcall {} ⟨some { o with
      crateOwners := o.crateOwners.insert crateName logins' }, p.ownersJson⟩ _ rfl rfl
      (by rw [AList.lookup_insert, he])
    rw [hcall {} p o ho' rfl hc, hagain]
    rfl

/-- **A registration that is not saved stays in memory.** -/
theorem not_unharmed_register (hw : io.write = .failed) {username : String}
    {bareToken : BareToken} (ho : ownersMut io p = .ok o)
    (hu : username ∉ o.fillOwnerTokens.ownerTokens) :
    ¬ Unharmed hashToken io p (.register username bareToken) := by
  intro h
  obtain ⟨o₁, ho₁, hsame⟩ := h.memory o (ownersMut_ok ho)
  have hcall : (call hashToken p io (.register username bareToken)).2 =
      ⟨some (o.enrolled username (hashToken bareToken)), p.ownersJson⟩ := by
    simp only [call, Prod.map, register, withOwners, ho, Owners.register, if_neg hu, syncOwners, hw,
      Owners.enrolled, tokenOwners_fillOwnerTokens, crateOwners_fillOwnerTokens, id]
  rw [hcall] at ho₁
  cases ho₁
  have hnew : (o.enrolled username (hashToken bareToken)).fillOwnerTokens.ownerTokens.lookup
      username = some (hashToken bareToken) := AList.lookup_insert _
  rw [hsame.ownerTokens username] at hnew
  exact hu (HashMap.mem_of_lookup hnew)

theorem unharmed_addOwners_iff (hp : InSync p) (hw : io.write = .failed)
    (ho : ownersMut io p = .ok o) (ht : tokenFromStr hashToken tokenStr = .ok token)
    (hl : o.tokenOwners.lookup token = some login)
    (hc : o.crateOwners.lookup crateName = some logins) (hm : login ∈ logins)
    (users : List String) :
    Unharmed hashToken io p (.addOwners tokenStr users crateName) ↔ users.toFinset ⊆ logins := by
  rw [← Finset.union_eq_left]
  refine unharmed_insert_iff (fun _ => .ok .done) hp hw ho hc ?_
  intro io' p' o₁ ho₁ htokens hc₁
  simp only [call, addOwners_eq ht ho₁ (htokens ▸ hl) hc₁ hm, Prod.map]
  cases (syncOwners io' _ p'.ownersJson).1 <;> rfl

theorem unharmed_removeOwners_iff (hp : InSync p) (hw : io.write = .failed)
    (ho : ownersMut io p = .ok o) (ht : tokenFromStr hashToken tokenStr = .ok token)
    (hl : o.tokenOwners.lookup token = some login)
    (hc : o.crateOwners.lookup crateName = some logins) (hm : login ∈ logins)
    (users : List String) :
    Unharmed hashToken io p (.removeOwners tokenStr users crateName) ↔
      logins.card ≤ 1 ∨ ∀ u ∈ users, u ∉ logins := by
  rw [← removeLoop_eq_self_iff]
  refine unharmed_insert_iff (fun _ =>
    if (removeLoop logins users).2 then .ok .done else .error .forbidden) hp hw ho hc ?_
  intro io' p' o₁ ho₁ htokens hc₁
  simp only [call, removeOwners_eq ho₁ ht (htokens ▸ hl) hc₁ hm, Prod.map]
  cases (syncOwners io' _ p'.ownersJson).1 with
  | error e => rfl
  | ok _ => cases (removeLoop logins users).2 <;> rfl

end Save

/-- **Exactly when a save that fails leaves the state as it was**: when the call had nothing to
change. A registration never does. -/
theorem failedSave_iff (p : FsAuthProvider) (hp : InSync p) {io : Io} (hw : io.write = .failed)
    (c : Call) (hs : c.Saves hashToken io p) : Unharmed hashToken io p c ↔ Harmless p c := by
  cases c with
  | register username bareToken =>
    obtain ⟨o, ho, hu⟩ := hs
    exact iff_of_false (not_unharmed_register hw ho hu) id
  | addOwners tokenStr users crateName =>
    obtain ⟨o, token, ho, ht, hauth⟩ := hs
    obtain ⟨logins, login, hc, hl, hm⟩ := ensureAuthorizedForCrate_ok.mp hauth
    rw [unharmed_addOwners_iff hp hw ho ht hl hc hm]
    simp only [Harmless, owns_iff_mem (ownersMut_ok ho) hc, Finset.subset_iff, List.mem_toFinset]
  | removeOwners tokenStr users crateName =>
    obtain ⟨o, token, ho, ht, hauth⟩ := hs
    obtain ⟨logins, login, hc, hl, hm⟩ := ensureAuthorizedForCrate_ok.mp hauth
    rw [unharmed_removeOwners_iff hp hw ho ht hl hc hm]
    simp only [Harmless, owns_iff_mem (ownersMut_ok ho) hc]
    refine or_congr_left ?_
    rw [Finset.card_le_one_iff_subset_singleton]
    constructor
    · rintro ⟨x, hx⟩
      refine ⟨login, hm, fun l hl => ?_⟩
      rw [Finset.mem_singleton.mp (hx hl), Finset.mem_singleton.mp (hx hm)]
    · rintro ⟨x, hx, huniq⟩
      exact ⟨x, fun l hl => Finset.mem_singleton.mpr (huniq l hl)⟩
  | _ => exact hs.elim

/-- `user2` is added to the owners once more. -/
theorem failedSave_harmless :
    Unharmed testHash { write := .failed } twoOwners
      (.addOwners (tokenToStr tokenZero) ["user2"] "crate1") := by
  have hsync : InSync twoOwners := ⟨_, _, rfl, rfl, fun _ => rfl, fun _ => rfl⟩
  have hsaves : (Call.addOwners (tokenToStr tokenZero) ["user2"] "crate1").Saves testHash
      { write := .failed } twoOwners := ⟨_, _, rfl, rfl, rfl⟩
  refine (failedSave_iff testHash twoOwners hsync rfl _ hsaves).mpr ?_
  intro u hu
  cases List.mem_singleton.mp hu
  exact ⟨_, {"user1", "user2"}, rfl, rfl, by decide⟩

/-- A registration that could not be saved is refused when it is repeated. -/
theorem failedSave_register :
    let c := Call.register "user1" tokenZero
    let p := (call testHash (new .missing) { write := .failed } c).2
    InSync (new .missing) ∧ c.Saves testHash { write := .failed } (new .missing) ∧
      ¬ Unharmed testHash { write := .failed } (new .missing) c ∧
      (call testHash p {} c).1 = .error .forbidden ∧
      (call testHash (new .missing) {} c).1 = .ok (.token (tokenToStr tokenZero)) := by
  intro c p
  have hnew : "user1" ∉ (Owners.fillOwnerTokens ⟨∅, ∅, ∅⟩).ownerTokens := by decide
  refine ⟨⟨_, _, rfl, rfl, fun _ => rfl, fun _ => rfl⟩, ⟨_, rfl, hnew⟩, ?_, rfl, rfl⟩
  exact not_unharmed_register rfl rfl hnew

end FsAuth

end Freighter
