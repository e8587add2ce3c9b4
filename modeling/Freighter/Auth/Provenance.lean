import Freighter.Auth.Effect

/-!
# Provenance of ownership

A run of one provider: each call comes with what the file system does during it.

* `Grants`: the two ways in which a login becomes an owner, the claim of a crate without owners and
  the word of an owner.
* **`owns_step`**, `present_step`, `authorized_of_ok`, `unresolved_call`: what one call preserves
  and whom it serves.
* **`provenance`**: the same along a run.
-/

namespace Freighter

namespace FsAuth

variable (hashToken : BareToken → HashedToken)

/-- One call of a run. -/
def ioStep (p : FsAuthProvider) (e : Io × Call) : AuthResult Reply × FsAuthProvider :=
  call hashToken p e.1 e.2

/-- The call makes `login` an owner of `crateName`. -/
def Grants (p : FsAuthProvider) (crateName login : String) : Call → Prop
  | .publish tokenStr name =>
    name = crateName ∧ ¬ Present p crateName ∧ Resolves hashToken p tokenStr login
  | .addOwners tokenStr users name =>
    name = crateName ∧ login ∈ users ∧
      ∃ owner, Resolves hashToken p tokenStr owner ∧ Owns p crateName owner
  | _ => False

/-- The token and the crate of a call that checks the token against the owners of the crate. -/
def Call.checks : Call → Option (String × String)
  | .addOwners tokenStr _ crateName => some (tokenStr, crateName)
  | .removeOwners tokenStr _ crateName => some (tokenStr, crateName)
  | .publish tokenStr crateName => some (tokenStr, crateName)
  | .authYank tokenStr crateName => some (tokenStr, crateName)
  | _ => none

/-- The token of a call. -/
def Call.tokenStr? : Call → Option String
  | .ensureValidToken tokenStr => some tokenStr
  | c => c.checks.map Prod.fst

section Step

variable {hashToken} {p : FsAuthProvider} {io : Io}

/-! ## Owners -/

theorem removeLoop_subset (users : List String) (logins : Finset String) :
    (removeLoop logins users).1 ⊆ logins := by
  induction users generalizing logins with
  | nil => exact Finset.Subset.refl _
  | cons login users ih =>
    unfold removeLoop
    by_cases h : 1 < logins.card
    · rw [if_pos h]
      exact (ih _).trans (Finset.erase_subset _ _)
    · rw [if_neg h]

theorem owns_iff {o : Owners} {file : OwnersJson} {crateName login : String} :
    Owns ⟨some o, file⟩ crateName login ↔
      ∃ logins, o.crateOwners.lookup crateName = some logins ∧ login ∈ logins := by
  constructor
  · rintro ⟨o', logins, ho, h⟩
    cases ho
    exact ⟨logins, h⟩
  · rintro ⟨logins, h⟩
    exact ⟨o, logins, rfl, h⟩

/-- A crate whose owners were replaced. -/
theorem owns_insert {o : Owners} {file : OwnersJson} {crateName name login : String}
    {logins : Finset String} {o' : Owners}
    (ho : o'.crateOwners = o.crateOwners.insert name logins)
    (h : Owns ⟨some o', file⟩ crateName login) :
    name = crateName ∧ login ∈ logins ∨
      ∃ logins, o.crateOwners.lookup crateName = some logins ∧ login ∈ logins := by
  obtain ⟨l, hl, hm⟩ := owns_iff.mp h
  rw [ho] at hl
  by_cases hn : crateName = name
  · subst hn
    rw [AList.lookup_insert] at hl
    cases hl
    exact Or.inl ⟨rfl, hm⟩
  · rw [AList.lookup_insert_ne hn] at hl
    exact Or.inr ⟨l, hl, hm⟩

/-- **Where an owner comes from**, for one call. -/
theorem owns_step {c : Call} {crateName login : String}
    (h : Owns (call hashToken p io c).2 crateName login) :
    Owns p crateName login ∨ Grants hashToken p crateName login c := by
  rcases call_cases hashToken p io c with ⟨_, hp⟩ | ⟨o, o', file, ho, hch, hp⟩
  · rw [hp] at h
    exact Or.inl h
  · rw [hp] at h
    have ho' := ownersMut_ok ho
    have hback : (∃ logins, o.crateOwners.lookup crateName = some logins ∧ login ∈ logins) →
        Owns p crateName login := fun ⟨logins, hl⟩ => ⟨o, logins, ho', hl⟩
    cases hch with
    | same => exact Or.inl (hback (owns_iff.mp h))
    | refused =>
      have ht : o.fillOwnerTokens.crateOwners = o.crateOwners :=
        congrArg Prod.snd (tables_fillOwnerTokens o)
      rw [owns_iff, ht] at h
      exact Or.inl (hback h)
    | registered _ he =>
      subst he
      obtain ⟨logins, hl⟩ := owns_iff.mp h
      exact Or.inl (hback ⟨logins, hl⟩)
    | claimed ht hl hc =>
      rcases owns_insert rfl h with ⟨rfl, hm⟩ | hold
      · cases Finset.mem_singleton.mp hm
        exact Or.inr ⟨rfl, mt (present_iff ho').mp hc, _, o, ht, ho', hl⟩
      · exact Or.inl (hback hold)
    | added ht hl hc hm he =>
      subst he
      rcases owns_insert rfl h with ⟨rfl, hnew⟩ | hold
      · rcases Finset.mem_union.mp hnew with hin | hin
        · exact Or.inl ⟨o, _, ho', hc, hin⟩
        · refine Or.inr ⟨rfl, List.mem_toFinset.mp hin, _, ⟨_, o, ht, ho', hl⟩, ?_⟩
          exact ⟨o, _, ho', hc, hm⟩
      · exact Or.inl (hback hold)
    | removed ht hl hc hm he =>
      subst he
      rcases owns_insert rfl h with ⟨rfl, hnew⟩ | hold
      · exact Or.inl ⟨o, _, ho', hc, removeLoop_subset _ _ hnew⟩
      · exact Or.inl (hback hold)

/-! ## Crates -/

/-- **A crate stays in `crate_owners`.** -/
theorem present_step {c : Call} {crateName : String} (h : Present p crateName) :
    Present (call hashToken p io c).2 crateName := by
  rcases call_cases hashToken p io c with ⟨_, hp⟩ | ⟨o, o', file, ho, hch, hp⟩
  · rw [hp]
    exact h
  · rw [hp]
    have hin := (present_iff (ownersMut_ok ho)).mp h
    refine ⟨o', rfl, ?_⟩
    cases hch with
    | same => exact hin
    | refused =>
      have ht : o.fillOwnerTokens.crateOwners = o.crateOwners :=
        congrArg Prod.snd (tables_fillOwnerTokens o)
      rw [ht]
      exact hin
    | registered _ he => rw [he]; exact hin
    | claimed => exact (AList.mem_insert _).mpr (Or.inr hin)
    | added _ _ _ _ he => rw [he]; exact (AList.mem_insert _).mpr (Or.inr hin)
    | removed _ _ _ _ he => rw [he]; exact (AList.mem_insert _).mpr (Or.inr hin)

/-! ## Tokens -/

/-- **A token without login changes no table.** -/
theorem unresolved_call {c : Call} {tokenStr : String} (hc : c.tokenStr? = some tokenStr)
    (hr : ∀ login, ¬ Resolves hashToken p tokenStr login) :
    ownersMut {} (call hashToken p io c).2 = ownersMut {} p ∧
      (call hashToken p io c).2.ownersJson = p.ownersJson := by
  rcases call_cases hashToken p io c with ⟨_, hp⟩ | ⟨o, o', file, ho, hch, hp⟩
  · rw [hp]
    exact ⟨rfl, rfl⟩
  · have ho' := ownersMut_ok ho
    have hno : ∀ token login, tokenFromStr hashToken tokenStr = .ok token →
        o.tokenOwners.lookup token = some login → False :=
      fun token login ht hl => hr login ⟨token, o, ht, ho', hl⟩
    cases hch with
    | same =>
      rw [hp]
      exact ⟨ho'.symm, rfl⟩
    | refused => cases hc
    | registered => cases hc
    | claimed ht hl => cases hc; exact (hno _ _ ht hl).elim
    | added ht hl => cases hc; exact (hno _ _ ht hl).elim
    | removed ht hl => cases hc; exact (hno _ _ ht hl).elim

theorem owns_of_check {o : Owners} {token : HashedToken} {tokenStr crateName : String}
    (ht : tokenFromStr hashToken tokenStr = .ok token) (ho : ownersMut {} p = .ok o)
    (hc : o.ensureAuthorizedForCrate token crateName = .ok ()) :
    ∃ login, Resolves hashToken p tokenStr login ∧ Owns p crateName login := by
  obtain ⟨logins, login, hl, hlogin, hm⟩ := ensureAuthorizedForCrate_ok.mp hc
  exact ⟨login, ⟨token, o, ht, ho, hlogin⟩, o, logins, ho, hl, hm⟩

/-- A call that resolves a token first and was answered with success ran its body. -/
theorem resolved_ok {tokenStr : String} {r : Reply}
    {body : HashedToken → Owners → AuthResult Unit × Owners × OwnersJson}
    (h : Except.map (fun _ => Reply.done) (match tokenFromStr hashToken tokenStr with
      | .error e => (.error e, p)
      | .ok hashedToken => withOwners io p (body hashedToken) :
        AuthResult Unit × FsAuthProvider).1 = .ok r) :
    ∃ token o, tokenFromStr hashToken tokenStr = .ok token ∧ ownersMut io p = .ok o ∧
      (body token o).1 = .ok () := by
  cases ht : tokenFromStr hashToken tokenStr with
  | error e => rw [ht] at h; cases h
  | ok token =>
    rw [ht] at h
    unfold withOwners at h
    cases ho : ownersMut io p with
    | error e => rw [ho] at h; cases h
    | ok o =>
      rw [ho] at h
      refine ⟨token, o, rfl, rfl, ?_⟩
      cases hb : (body token o).1 with
      | error e =>
        simp only [hb] at h
        cases h
      | ok _ => rfl

theorem ok_of_checked {o : Owners} {file : OwnersJson} {token : HashedToken} {crateName : String}
    {k : AuthResult Unit × Owners × OwnersJson}
    (h : (match o.ensureAuthorizedForCrate token crateName with
      | .error e => (.error e, o, file)
      | .ok () => k : AuthResult Unit × Owners × OwnersJson).1 = .ok ()) :
    o.ensureAuthorizedForCrate token crateName = .ok () := by
  cases he : o.ensureAuthorizedForCrate token crateName with
  | error e => rw [he] at h; cases h
  | ok _ => rfl

/-- **Whom a call serves**: the token's login owns the crate when the check is made, which is after
the claim of a crate without owners. -/
theorem authorized_of_ok {c : Call} {tokenStr crateName : String} {r : Reply}
    (hc : c.checks = some (tokenStr, crateName)) (h : (call hashToken p io c).1 = .ok r) :
    ∃ login, Resolves hashToken p tokenStr login ∧
      (Owns p crateName login ∨ c = .publish tokenStr crateName ∧ ¬ Present p crateName ∧
        Owns (call hashToken p io c).2 crateName login) := by
  cases c with
  | addOwners t users name =>
    cases hc
    obtain ⟨token, o, ht, ho, hb⟩ := resolved_ok h
    obtain ⟨login, hl, hown⟩ := owns_of_check ht (ownersMut_ok ho) (ok_of_checked hb)
    exact ⟨login, hl, Or.inl hown⟩
  | removeOwners t users name =>
    cases hc
    obtain ⟨token, o, ht, ho, hb⟩ := resolved_ok h
    obtain ⟨login, hl, hown⟩ := owns_of_check ht (ownersMut_ok ho) (ok_of_checked hb)
    exact ⟨login, hl, Or.inl hown⟩
  | authYank t name =>
    cases hc
    obtain ⟨token, o, ht, ho, hb⟩ := resolved_ok h
    obtain ⟨login, hl, hown⟩ := owns_of_check ht (ownersMut_ok ho) hb
    exact ⟨login, hl, Or.inl hown⟩
  | publish t name =>
    cases hc
    obtain ⟨token, o, ht, ho, hb⟩ := resolved_ok h
    have ho' := ownersMut_ok ho
    unfold Owners.claim at hb
    by_cases hin : crateName ∈ o.crateOwners
    · rw [if_pos hin] at hb
      obtain ⟨login, hl, hown⟩ := owns_of_check ht ho' hb
      exact ⟨login, hl, Or.inl hown⟩
    · rw [if_neg hin] at hb
      cases hl : o.loginForToken token with
      | error e => rw [hl] at hb; cases hb
      | ok login =>
        have hlogin := loginForToken_ok.mp hl
        refine ⟨login, ⟨token, o, ht, ho', hlogin⟩, Or.inr ⟨rfl, mt (present_iff ho').mp hin, ?_⟩⟩
        simp only [call, publish_claim ht ho hlogin hin, Prod.map]
        exact owns_iff.mpr ⟨_, AList.lookup_insert _, Finset.mem_singleton_self _⟩
  | _ => cases hc

end Step

/-! ## Runs -/

/-- **Provenance of ownership.** Along every run of calls on one provider, whatever the file system
does: an owner was one at the start or was made one by a call of the run; a crate stays in
`crate_owners`; a call that checks the owners of a crate succeeds only for one of them; and a token
without login changes no table. -/
theorem provenance (p : FsAuthProvider) (calls : List (Io × Call)) :
    (∀ crateName login, Owns (Run.final (ioStep hashToken) p calls) crateName login →
      Owns p crateName login ∨ ∃ pre io c post, calls = pre ++ (io, c) :: post ∧
        Grants hashToken (Run.final (ioStep hashToken) p pre) crateName login c) ∧
    (∀ pre post crateName, calls = pre ++ post →
      Present (Run.final (ioStep hashToken) p pre) crateName →
        Present (Run.final (ioStep hashToken) p calls) crateName) ∧
    (∀ pre io c post tokenStr crateName r, calls = pre ++ (io, c) :: post →
      c.checks = some (tokenStr, crateName) →
      let q := Run.final (ioStep hashToken) p pre
      (call hashToken q io c).1 = .ok r →
        ∃ login, Resolves hashToken q tokenStr login ∧
          (Owns q crateName login ∨ c = .publish tokenStr crateName ∧ ¬ Present q crateName ∧
            Owns (call hashToken q io c).2 crateName login)) ∧
    (∀ pre io c post tokenStr, calls = pre ++ (io, c) :: post → c.tokenStr? = some tokenStr →
      let q := Run.final (ioStep hashToken) p pre
      (∀ login, ¬ Resolves hashToken q tokenStr login) →
        ownersMut {} (call hashToken q io c).2 = ownersMut {} q ∧
          (call hashToken q io c).2.ownersJson = q.ownersJson) := by
  refine ⟨fun crateName login h => ?_, ?_, ?_, ?_⟩
  · induction calls using List.reverseRecOn with
    | nil => exact Or.inl h
    | append_singleton calls e ih =>
      rw [Run.final_concat] at h
      rcases owns_step h with hown | hgrant
      · rcases ih hown with h0 | ⟨pre, io, c, post, rfl, hg⟩
        · exact Or.inl h0
        · exact Or.inr ⟨pre, io, c, post ++ [e], by simp, hg⟩
      · exact Or.inr ⟨calls, e.1, e.2, [], rfl, hgrant⟩
  · rintro pre post crateName rfl h
    rw [Run.final_append]
    exact Run.final_invariant (I := fun p => Present p crateName) (fun _ _ hp => present_step hp)
      h post
  · intro pre io c post tokenStr crateName r _ hc q h
    exact authorized_of_ok hc h
  · intro pre io c post tokenStr _ hc q hr
    exact unresolved_call hc hr

/-- In a run from an empty directory `user2` owns a crate because `user1`, who claimed it, said
so. -/
theorem provenance_added :
    let calls : List (Io × Call) := [({}, .register "user1" tokenZero),
      ({ write := .failed }, .register "user2" tokenOne),
      ({}, .publish (tokenToStr tokenZero) "crate1"),
      ({}, .addOwners (tokenToStr tokenZero) ["user2"] "crate1")]
    ∃ pre io c post, calls = pre ++ (io, c) :: post ∧
      Grants testHash (Run.final (ioStep testHash) (new .missing) pre) "crate1" "user2" c := by
  have howns : Owns (Run.final (ioStep testHash) (new .missing)
      [({}, .register "user1" tokenZero), ({ write := .failed }, .register "user2" tokenOne),
        ({}, .publish (tokenToStr tokenZero) "crate1"),
        ({}, .addOwners (tokenToStr tokenZero) ["user2"] "crate1")]) "crate1" "user2" :=
    ⟨_, {"user1", "user2"}, rfl, by decide, by decide⟩
  refine ((provenance testHash (new .missing) _).1 _ _ howns).resolve_left ?_
  rintro ⟨o, logins, ho, hl, -⟩
  cases ho
  cases hl

end FsAuth

end Freighter
