import Freighter.Auth.Provenance
import Freighter.Auth.Registration

/-!
# The removal of owners

`remove_owners` takes the listed users away one by one, as long as two owners are left, and stops
with an error at the first listed user that finds one owner only; it saves on both exits.

* `removeLoop_finished_iff`, `removeLoop_of_finished`, `removeLoop_eq_self_iff`: what the loop does.
* **`final_owned`**: no crate is ever without an owner.
* `AllOrNothing`, `RemovesAll`; **`removeOwners_allOrNothing_iff`**: exactly when a removal is all
  or nothing.
-/

namespace Freighter

namespace FsAuth

/-! ## The loop -/

section Loop

variable {logins : Finset String} {users : List String}

/-- **The loop leaves an owner.** -/
theorem removeLoop_nonempty (h : logins.Nonempty) : (removeLoop logins users).1.Nonempty := by
  induction users generalizing logins with
  | nil => exact h
  | cons login users ih =>
    unfold removeLoop
    split_ifs with hc
    · refine ih (Finset.card_pos.mp ?_)
      have := Finset.pred_card_le_card_erase (s := logins) (a := login)
      omega
    · exact h

/-- A loop that finishes has removed every listed user. -/
theorem removeLoop_of_finished (h : (removeLoop logins users).2 = true) :
    (removeLoop logins users).1 = logins \ users.toFinset := by
  induction users generalizing logins with
  | nil => simp [removeLoop]
  | cons login users ih =>
    unfold removeLoop at h ⊢
    split_ifs at h ⊢ with hc
    rw [ih h, List.toFinset_cons, Finset.sdiff_insert, Finset.erase_sdiff_comm]

/-- A loop that stops leaves one owner at most. -/
theorem card_removeLoop_of_stopped (h : (removeLoop logins users).2 = false) :
    (removeLoop logins users).1.card ≤ 1 := by
  induction users generalizing logins with
  | nil => cases h
  | cons login users ih =>
    unfold removeLoop at h ⊢
    split_ifs at h ⊢ with hc
    · exact ih h
    · simp only
      omega

/-- **When the loop finishes**: before the last listed user two owners are left. -/
theorem removeLoop_finished_iff : (removeLoop logins users).2 = true ↔
    users = [] ∨ 2 ≤ (logins \ users.dropLast.toFinset).card := by
  induction users generalizing logins with
  | nil => simp [removeLoop]
  | cons login users ih =>
    unfold removeLoop
    simp only [reduceCtorEq, false_or]
    split_ifs with hc
    · rw [ih]
      cases users with
      | nil => simp [Nat.succ_le_iff, hc]
      | cons u us =>
        rw [List.dropLast_cons_cons, List.toFinset_cons, Finset.sdiff_insert,
          Finset.erase_sdiff_comm]
        simp only [reduceCtorEq, false_or]
    · have := Finset.card_le_card (Finset.sdiff_subset (s := logins)
        (t := (login :: users).dropLast.toFinset))
      simp only [false_iff]
      omega

/-- **When the loop removes nothing.** -/
theorem removeLoop_eq_self_iff :
    (removeLoop logins users).1 = logins ↔ logins.card ≤ 1 ∨ ∀ u ∈ users, u ∉ logins := by
  induction users generalizing logins with
  | nil => simp [removeLoop]
  | cons login users ih =>
    unfold removeLoop
    split_ifs with hc
    · by_cases hl : login ∈ logins
      · -- it is removed for good
        refine iff_of_false (fun he => ?_) ?_
        · have hsub := removeLoop_subset users (logins.erase login)
          rw [he] at hsub
          exact Finset.notMem_erase login logins (hsub hl)
        · rintro (h | h)
          · omega
          · exact h login List.mem_cons_self hl
      · rw [Finset.erase_eq_of_notMem hl, ih, List.forall_mem_cons]
        simp only [hl, not_false_eq_true, true_and]
    · exact iff_of_true rfl (Or.inl (by omega))

end Loop

/-! ## Every crate has an owner -/

variable (hashToken : BareToken → HashedToken)

/-- Every crate in the table has an owner. -/
def Owned (crateOwners : HashMap String (Finset String)) : Prop :=
  ∀ crateName logins, crateOwners.lookup crateName = some logins → logins.Nonempty

theorem Owned.insert {crateOwners : HashMap String (Finset String)} (h : Owned crateOwners)
    {name : String} {logins : Finset String} (hl : logins.Nonempty) :
    Owned (crateOwners.insert name logins) := by
  intro crateName l hc
  by_cases hn : crateName = name
  · subst hn
    rw [AList.lookup_insert] at hc
    cases hc
    exact hl
  · rw [AList.lookup_insert_ne hn] at hc
    exact h crateName l hc

/-- Every crate has an owner, in memory and in the file. -/
structure AllOwned (p : FsAuthProvider) : Prop where
  memory : ∀ o, p.owners = some o → Owned o.crateOwners
  file : ∀ tokenOwners crateOwners, p.ownersJson = .saved tokenOwners crateOwners →
    Owned crateOwners

section Owned

variable {hashToken} {p : FsAuthProvider} {io : Io}

theorem AllOwned.ownersMut (h : AllOwned p) {o : Owners} (ho : ownersMut io p = .ok o) :
    Owned o.crateOwners := by
  have ho' := ownersMut_ok ho
  unfold FsAuth.ownersMut at ho'
  cases hp : p.owners with
  | some o' =>
    rw [hp] at ho'
    cases ho'
    exact h.memory _ hp
  | none =>
    rw [hp] at ho'
    unfold loadOwnersFile at ho'
    cases hf : p.ownersJson with
    | missing =>
      rw [hf] at ho'
      cases ho'
      intro crateName logins hc
      cases hc
    | garbage => rw [hf] at ho'; cases ho'
    | saved tokenOwners crateOwners =>
      rw [hf] at ho'
      cases ho'
      exact h.file _ _ hf

/-- Tables in which every crate has an owner may be saved. -/
theorem AllOwned.saved (h : AllOwned p) {o : Owners} (ho : Owned o.crateOwners) :
    AllOwned ⟨some o, (syncOwners io o p.ownersJson).2⟩ where
  memory _ he := by cases he; exact ho
  file tokenOwners crateOwners he := by
    simp only [syncOwners] at he
    cases hw : io.write with
    | done => rw [hw] at he; cases he; exact ho
    | failed => rw [hw] at he; exact h.file _ _ he
    | truncated => rw [hw] at he; cases he

theorem AllOwned.kept (h : AllOwned p) {o : Owners} (ho : Owned o.crateOwners) :
    AllOwned ⟨some o, p.ownersJson⟩ where
  memory _ he := by cases he; exact ho
  file := h.file

/-- **A call leaves every crate with an owner.** -/
theorem AllOwned.call (h : AllOwned p) (c : Call) : AllOwned (call hashToken p io c).2 := by
  rcases call_cases hashToken p io c with ⟨_, hp⟩ | ⟨o, o', file, ho, hch, hp⟩
  · rw [hp]
    exact h
  · rw [hp]
    have hown := h.ownersMut ho
    cases hch with
    | same => exact h.kept hown
    | refused => exact h.kept (by rw [crateOwners_fillOwnerTokens]; exact hown)
    | registered _ he =>
      refine h.saved ?_
      rw [he]
      exact hown
    | claimed => exact h.kept (hown.insert (Finset.singleton_nonempty _))
    | added _ _ _ hm he =>
      refine h.saved ?_
      rw [he]
      exact hown.insert ⟨_, Finset.mem_union_left _ hm⟩
    | removed _ _ _ hm he =>
      refine h.saved ?_
      rw [he]
      exact hown.insert (removeLoop_nonempty ⟨_, hm⟩)

theorem AllOwned.act (h : AllOwned p) (a : Action) : AllOwned (act hashToken p a).2 := by
  cases a with
  | call io c => exact h.call c
  | healthcheck io =>
    simp only [FsAuth.act, healthcheck, withOwners]
    cases ho : FsAuth.ownersMut io p with
    | error e => exact h
    | ok o => exact h.kept (h.ownersMut ho)
  | restart =>
    refine ⟨fun o ho => ?_, h.file⟩
    cases ho

end Owned

/-- **No crate is ever without an owner**: after every run of calls, health checks and restarts on a
directory that was empty, whatever the calls are, return and become of their saves. -/
theorem final_owned (actions : List Action) :
    let p := Run.final (act hashToken) (new .missing) actions
    (∀ o, p.owners = some o → Owned o.crateOwners) ∧
      ∀ tokenOwners crateOwners, p.ownersJson = .saved tokenOwners crateOwners →
        Owned crateOwners := by
  have h : AllOwned (Run.final (act hashToken) (new .missing) actions) := by
    refine Run.final_invariant (fun _ _ hp => hp.act _) ⟨?_, ?_⟩ actions
    · intro o ho
      cases ho
    · intro tokenOwners crateOwners hf
      cases hf
  exact ⟨h.memory, h.file⟩

/-! ## All or nothing -/

/-- The owners of the crate, in memory and in the file. -/
def OwnedBy (p : FsAuthProvider) (crateName : String) (logins : Finset String) : Prop :=
  (∃ o, p.owners = some o ∧ o.crateOwners.lookup crateName = some logins) ∧
    ∃ tokenOwners crateOwners, p.ownersJson = .saved tokenOwners crateOwners ∧
      crateOwners.lookup crateName = some logins

/-- The users are all removed, or the call is refused and nobody is. -/
def AllOrNothing (crateName : String) (logins : Finset String) (users : List String)
    (out : AuthResult Unit × FsAuthProvider) : Prop :=
  if (logins \ users.toFinset).Nonempty then
    out.1 = .ok () ∧ OwnedBy out.2 crateName (logins \ users.toFinset)
  else out.1 = .error .forbidden ∧ OwnedBy out.2 crateName logins

/-- Nobody is listed, or two owners are left before the last listed user, or the single owner is
listed. -/
def RemovesAll (logins : Finset String) (users : List String) : Prop :=
  users = [] ∨ 2 ≤ (logins \ users.dropLast.toFinset).card ∨
    logins.card = 1 ∧ logins ⊆ users.toFinset

section Removal

variable {hashToken} {p : FsAuthProvider} {io : Io} {tokenStr crateName login : String}
  {token : HashedToken} {o : Owners} {logins : Finset String}

/-- A removal by an owner. -/
theorem removeOwners_eq (ho : ownersMut io p = .ok o)
    (ht : tokenFromStr hashToken tokenStr = .ok token)
    (hl : o.tokenOwners.lookup token = some login)
    (hc : o.crateOwners.lookup crateName = some logins) (hm : login ∈ logins)
    (users : List String) :
    removeOwners hashToken io p tokenStr users crateName =
      let loop := removeLoop logins users
      let o' := { o with crateOwners := o.crateOwners.insert crateName loop.1 }
      let r := syncOwners io o' p.ownersJson
      (r.1.bind fun _ => if loop.2 then .ok () else .error .forbidden, ⟨some o', r.2⟩) := by
  have hauth := ensureAuthorizedForCrate_ok.mpr ⟨logins, login, hc, hl, hm⟩
  simp only [removeOwners, ht, withOwners, ho, hauth, hc]

/-- A removal that is saved answers by the loop and leaves what the loop leaves. -/
theorem removeOwners_saved (hw : io.write = .done) (ho : ownersMut io p = .ok o)
    (ht : tokenFromStr hashToken tokenStr = .ok token)
    (hl : o.tokenOwners.lookup token = some login)
    (hc : o.crateOwners.lookup crateName = some logins) (hm : login ∈ logins)
    (users : List String) :
    let out := removeOwners hashToken io p tokenStr users crateName
    out.1 = (if (removeLoop logins users).2 then .ok () else .error .forbidden) ∧
      ∀ l, OwnedBy out.2 crateName l ↔ (removeLoop logins users).1 = l := by
  rw [removeOwners_eq ho ht hl hc hm]
  simp only [syncOwners, hw]
  refine ⟨rfl, fun l => ⟨?_, ?_⟩⟩
  · rintro ⟨⟨o', ho', hl'⟩, -⟩
    cases ho'
    simp only [AList.lookup_insert, Option.some.injEq] at hl'
    exact hl'
  · rintro rfl
    exact ⟨⟨_, rfl, AList.lookup_insert _⟩, _, _, rfl, AList.lookup_insert _⟩

variable (hashToken) in
/-- **All or nothing, by the loop.** -/
theorem allOrNothing_iff (hw : io.write = .done) (ho : ownersMut io p = .ok o)
    (ht : tokenFromStr hashToken tokenStr = .ok token)
    (hl : o.tokenOwners.lookup token = some login)
    (hc : o.crateOwners.lookup crateName = some logins) (hm : login ∈ logins)
    (users : List String) :
    AllOrNothing crateName logins users
      (removeOwners hashToken io p tokenStr users crateName) ↔ RemovesAll logins users := by
  obtain ⟨hr, hown⟩ := removeOwners_saved hw ho ht hl hc hm users
  have hcard : 0 < logins.card := Finset.card_pos.mpr ⟨login, hm⟩
  unfold AllOrNothing RemovesAll
  rw [hr, hown, hown, ← or_assoc, ← removeLoop_finished_iff]
  cases hfin : (removeLoop logins users).2 with
  | true =>
    -- then an owner is left, by the loop itself
    have hleft : (logins \ users.toFinset).Nonempty := by
      rw [← removeLoop_of_finished hfin]
      exact removeLoop_nonempty ⟨login, hm⟩
    rw [if_pos hleft]
    simp [removeLoop_of_finished hfin]
  | false =>
    simp only [Bool.false_eq_true, if_false, reduceCtorEq, false_and, true_and, false_or,
      if_false_left, Finset.not_nonempty_iff_eq_empty, Finset.sdiff_eq_empty_iff_subset]
    refine ⟨fun ⟨hsub, hself⟩ => ⟨?_, hsub⟩, fun ⟨hone, hsub⟩ => ⟨hsub, ?_⟩⟩
    · have hle := card_removeLoop_of_stopped hfin
      rw [hself] at hle
      omega
    · exact removeLoop_eq_self_iff.mpr (Or.inl hone.le)

end Removal

/-- Whatever the order of the list and however often it repeats a user. -/
theorem removesAll_all_iff {logins : Finset String} {users : List String} :
    (∀ users', users'.toFinset = users.toFinset → RemovesAll logins users') ↔
      users = [] ∨ 2 ≤ (logins \ users.toFinset).card ∨
        logins.card = 1 ∧ logins ⊆ users.toFinset := by
  constructor
  · intro h
    -- the list twice: before its last user every user has been listed
    rcases h (users ++ users) (by simp) with he | hcard | hone
    · exact Or.inl (List.append_eq_nil_iff.mp he).1
    · by_cases hne : users = []
      · exact Or.inl hne
      · rw [List.dropLast_append_of_ne_nil hne, List.toFinset_append] at hcard
        exact Or.inr (Or.inl (hcard.trans (Finset.card_le_card
          (Finset.sdiff_subset_sdiff (Finset.Subset.refl _) Finset.subset_union_left))))
    · rw [List.toFinset_append, Finset.union_self] at hone
      exact Or.inr (Or.inr hone)
  · intro h users' hsame
    rcases h with rfl | hcard | hone
    · exact Or.inl (List.toFinset_eq_empty_iff _ |>.mp hsame)
    · refine Or.inr (Or.inl (hcard.trans (Finset.card_le_card
        (Finset.sdiff_subset_sdiff (Finset.Subset.refl _) ?_))))
      rw [← hsame]
      exact fun u hu =>
        List.mem_toFinset.mpr (List.dropLast_subset users' (List.mem_toFinset.mp hu))
    · rw [← hsame] at hone
      exact Or.inr (Or.inr hone)

/-- **Exactly when a removal is all or nothing**: when nobody is listed, two owners are left before
the last listed user, or the single owner is listed; and for every list of the same users, when
nobody is listed, two owners are not, or the single owner is. -/
theorem removeOwners_allOrNothing_iff (p : FsAuthProvider) {io : Io} (hw : io.write = .done)
    {tokenStr crateName login : String} {token : HashedToken} {o : Owners} {logins : Finset String}
    (ho : ownersMut io p = .ok o) (ht : tokenFromStr hashToken tokenStr = .ok token)
    (hl : o.tokenOwners.lookup token = some login)
    (hc : o.crateOwners.lookup crateName = some logins) (hm : login ∈ logins)
    (users : List String) :
    (AllOrNothing crateName logins users
        (removeOwners hashToken io p tokenStr users crateName) ↔ RemovesAll logins users) ∧
    ((∀ users', users'.toFinset = users.toFinset → AllOrNothing crateName logins users'
        (removeOwners hashToken io p tokenStr users' crateName)) ↔
      users = [] ∨ 2 ≤ (logins \ users.toFinset).card ∨
        logins.card = 1 ∧ logins ⊆ users.toFinset) := by
  refine ⟨allOrNothing_iff hashToken hw ho ht hl hc hm users, ?_⟩
  rw [← removesAll_all_iff]
  exact forall₂_congr fun users' _ => allOrNothing_iff hashToken hw ho ht hl hc hm users'

/-- `crate1` with the owners `user1` and `user2`. -/
def twoOwners : FsAuthProvider :=
  Run.final (act testHash) (new .missing) [.call {} (.register "user1" tokenZero),
    .call {} (.register "user2" tokenOne), .call {} (.publish (tokenToStr tokenZero) "crate1"),
    .call {} (.addOwners (tokenToStr tokenZero) ["user2"] "crate1")]

/-- One of the two owners is removed. -/
theorem removeOwners_one :
    AllOrNothing "crate1" {"user1", "user2"} ["user2"]
      (removeOwners testHash {} twoOwners (tokenToStr tokenZero) ["user2"] "crate1") :=
  (removeOwners_allOrNothing_iff testHash twoOwners rfl rfl rfl rfl rfl (by decide)
    ["user2"]).1.mpr (Or.inr (Or.inl (by decide)))

/-- Both owners are listed, and the first is gone when the call is refused; one of them is listed
twice, and the call is refused although the other is left. -/
theorem removeOwners_not_allOrNothing :
    ¬ AllOrNothing "crate1" {"user1", "user2"} ["user1", "user2"]
        (removeOwners testHash {} twoOwners (tokenToStr tokenZero) ["user1", "user2"] "crate1") ∧
      ¬ AllOrNothing "crate1" {"user1", "user2"} ["user2", "user2"]
        (removeOwners testHash {} twoOwners (tokenToStr tokenZero) ["user2", "user2"] "crate1") := by
  refine ⟨fun h => ?_, fun h => ?_⟩
  · rw [AllOrNothing, if_neg (by decide)] at h
    obtain ⟨-, ⟨o, ho, hl⟩, -⟩ := h
    cases ho
    exact absurd hl (by decide)
  · rw [AllOrNothing, if_pos (by decide)] at h
    exact absurd h.1 (by decide)

end FsAuth

end Freighter
