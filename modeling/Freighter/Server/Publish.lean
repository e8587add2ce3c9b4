import Freighter.Server.Handlers

/-!
# What a failed publish request leaves behind

* `TakesClaim`: the request takes a crate without owners; `CleansOther`: its clean-up deletes an
  object that was there before;
* `publishAuthorized_error`: what an error leaves of the files and the bucket; `publish_asserts`:
  a publish that succeeds has stored its tarball;
* **`nothing_left_iff`**: a request that is answered with an error leaves nothing behind iff it does
  neither.
-/

namespace Freighter

namespace Server

variable (L : Libs) (hashToken : BareToken → HashedToken) (sha256 : Bytes → Checksum)

/-- The tables, in memory and saved, the index files and the objects are the same. -/
structure Unchanged (s s' : Stores) : Prop where
  tables : FsAuth.ownersMut {} s'.auth = FsAuth.ownersMut {} s.auth
  saved : s'.auth.ownersJson = s.auth.ownersJson
  files : s'.files = s.files
  bucket : s'.bucket = s.bucket

/-- The tables can be had, the token has a login, and the crate has no owners. -/
def TakesClaim (io : Io) (s : Stores) (token : String) (json : Publish) : Prop :=
  ∃ o login, FsAuth.ownersMut io.auth s.auth = .ok o ∧
    FsAuth.Resolves hashToken s.auth token login ∧ ¬ FsAuth.Present s.auth json.name

/-- The request is accepted and its tarball stored, then the index write fails; and there was an
object under one of the two paths that the clean-up deletes. -/
def CleansOther (io : Io) (s : Stores) (json : Publish) (crateBytes : Bytes) : Prop :=
  FsIndex.Accepts L io.index s.files json ∧ io.putCrateFails = false ∧ io.index.putFails = true ∧
    (s.bucket (S3.newPath json.name json.vers.display (sha256 crateBytes)) ≠ none ∨
      s.bucket (S3.oldPath json.name json.vers.display) ≠ none)

variable {L hashToken sha256} {io : Io} {s : Stores} {json : Publish} {crateBytes : Bytes}

/-! ## The index and the bucket -/

/-- The clean-up after a store leaves the bucket as it was iff nothing was under the two paths. -/
theorem bucket_eq_iff {b : S3.Bucket} {name version : String} {c : Checksum} {data : Bytes} :
    (S3.deleteCrate false false (Function.update b (S3.newPath name version c) (some data)) name
      version c).2 = b ↔
        b (S3.newPath name version c) = none ∧ b (S3.oldPath name version) = none := by
  constructor
  · intro h
    have hat : ∀ path, (S3.deleteCrate false false
        (Function.update b (S3.newPath name version c) (some data)) name version c).2 path =
          b path := fun path => congrFun h path
    refine ⟨?_, ?_⟩
    · rw [← hat, S3.deleteCrate_self]
    · rw [← hat, S3.deleteCrate_apply, if_pos (Or.inl ⟨rfl, rfl⟩)]
  · rintro ⟨hnew, hold⟩
    funext path
    rw [S3.deleteCrate_apply]
    by_cases hp : path = S3.newPath name version c
    · rw [if_pos (Or.inr ⟨rfl, hp⟩), hp, hnew]
    · by_cases hq : path = S3.oldPath name version
      · rw [if_pos (Or.inl ⟨rfl, hq⟩), hq, hold]
      · rw [if_neg (by simp [hp, hq]), Function.update_of_ne hp]

/-- **What an error of the index leaves**: the files as they were, and the bucket too unless the
clean-up deletes what was there before. -/
theorem publishAuthorized_error {e : ApiError}
    (hnew : io.deleteNewFails = false) (hold : io.deleteOldFails = false)
    (h : (publishAuthorized L sha256 io s json crateBytes).1 = .error e) :
    let s' := (publishAuthorized L sha256 io s json crateBytes).2
    s'.auth = s.auth ∧ s'.files = s.files ∧
      (s'.bucket = s.bucket ↔ ¬ CleansOther L sha256 io s json crateBytes) := by
  by_cases hacc : FsIndex.Accepts L io.index s.files json
  · obtain ⟨path, data, hp⟩ := publishAuthorized_of_accepts sha256 crateBytes hacc
    rw [hp] at h ⊢
    by_cases hput : io.putCrateFails = true
    · rw [if_pos hput]
      refine ⟨rfl, rfl, fun _ => ?_, fun _ => rfl⟩
      rintro ⟨-, hstored, -⟩
      exact absurd (hput.symm.trans hstored) (by decide)
    · rw [if_neg hput] at h ⊢
      by_cases hindex : io.index.putFails = true
      · rw [if_pos hindex, hnew, hold]
        refine ⟨rfl, rfl, bucket_eq_iff.trans ⟨?_, fun hn => ?_⟩⟩
        · rintro ⟨hfree, hlegacy⟩ ⟨-, -, -, hother⟩
          rcases hother with hother | hother
          · exact hother hfree
          · exact hother hlegacy
        · by_contra hother
          rw [not_and_or] at hother
          exact hn ⟨hacc, Bool.not_eq_true _ ▸ hput, hindex, hother⟩
      · rw [if_neg hindex] at h
        cases h
  · obtain ⟨e', hp⟩ := publishAuthorized_of_not_accepts sha256 crateBytes hacc
    rw [hp]
    exact ⟨rfl, rfl, fun _ hclean => hacc hclean.1, fun _ => rfl⟩

/-- A publish that succeeds has run `end_step` with success, as the handler asserts. -/
theorem publish_asserts : (publishAuthorized L sha256 io s json crateBytes).1 ≠ .panicked := by
  by_cases hacc : FsIndex.Accepts L io.index s.files json
  · obtain ⟨path, data, hp⟩ := publishAuthorized_of_accepts sha256 crateBytes hacc
    rw [hp]
    split_ifs <;> simp
  · obtain ⟨e, hp⟩ := publishAuthorized_of_not_accepts sha256 crateBytes hacc
    rw [hp]
    simp

/-! ## The whole request -/

/-- A claim is seen in the tables. -/
theorem not_unchanged_of_takesClaim {token : String} {s' : Stores}
    (h : TakesClaim hashToken io s token json)
    (ha : s'.auth = (FsAuth.publish hashToken io.auth s.auth token json.name).2) :
    ¬ Unchanged s s' := by
  obtain ⟨o, login, ho, hr, hn⟩ := h
  obtain ⟨-, o', ho', hmem⟩ := FsAuth.publish_claims ho hr hn
  intro hsame
  rw [← ha, hsame.tables] at ho'
  exact hn ⟨o', ho', hmem⟩

/-- Without a claim the tables stay. -/
theorem keeps_of_not_takesClaim {token : String} (h : ¬ TakesClaim hashToken io s token json) :
    let auth := (FsAuth.publish hashToken io.auth s.auth token json.name).2
    FsAuth.ownersMut {} auth = FsAuth.ownersMut {} s.auth ∧
      auth.ownersJson = s.auth.ownersJson := by
  refine FsAuth.publish_keeps fun o login ho hlogin => ?_
  by_contra hn
  exact h ⟨o, login, ho, hlogin, hn⟩

/-- A well-formed request that is answered with an error. -/
theorem unchanged_iff_of_receive {authorization : Option Bytes} {body : Bytes} {token : String}
    {e : ApiError} (hr : receive L authorization body = some (.ok (token, json, crateBytes)))
    (hnew : io.deleteNewFails = false) (hold : io.deleteOldFails = false)
    (h : (publish L hashToken sha256 io s authorization body).1 = .error e) :
    Unchanged s (publish L hashToken sha256 io s authorization body).2 ↔
      ¬ TakesClaim hashToken io s token json ∧
      ((FsAuth.publish hashToken io.auth s.auth token json.name).1 = .ok () →
        ¬ CleansOther L sha256 io s json crateBytes) := by
  by_cases hclaim : TakesClaim hashToken io s token json
  · refine iff_of_false ?_ fun hnone => hnone.1 hclaim
    obtain ⟨o, login, ho, hlogin, hn⟩ := hclaim
    rw [publish_of_receive hr (FsAuth.publish_claims ho hlogin hn).1] at h ⊢
    exact not_unchanged_of_takesClaim ⟨o, login, ho, hlogin, hn⟩
      (publishAuthorized_error hnew hold h).1
  · obtain ⟨htables, hsaved⟩ := keeps_of_not_takesClaim hclaim
    cases hok : (FsAuth.publish hashToken io.auth s.auth token json.name).1 with
    | error e' =>
      rw [publish_of_refused hr hok]
      exact iff_of_true ⟨htables, hsaved, rfl, rfl⟩ ⟨hclaim, fun hok => by cases hok⟩
    | ok _ =>
      rw [publish_of_receive hr hok] at h ⊢
      obtain ⟨hauth, hfiles, hbucket⟩ := publishAuthorized_error hnew hold h
      constructor
      · intro hsame
        exact ⟨hclaim, fun _ => hbucket.mp hsame.bucket⟩
      · rintro ⟨-, hnot⟩
        refine ⟨?_, ?_, hfiles, hbucket.mpr (hnot rfl)⟩
        · rw [hauth]
          exact htables
        · rw [hauth]
          exact hsaved

/-- **A request that is answered with an error leaves nothing behind** iff it takes no claim, and,
when it gets that far, its clean-up deletes nothing that was there before. -/
theorem nothing_left_iff (L : Libs) (hashToken : BareToken → HashedToken)
    (sha256 : Bytes → Checksum) (io : Io) (s : Stores) (authorization : Option Bytes)
    (body : Bytes) (e : ApiError) (hnew : io.deleteNewFails = false)
    (hold : io.deleteOldFails = false)
    (h : (publish L hashToken sha256 io s authorization body).1 = .error e) :
    Unchanged s (publish L hashToken sha256 io s authorization body).2 ↔
      ∀ token json crateBytes,
        receive L authorization body = some (.ok (token, json, crateBytes)) →
          ¬ TakesClaim hashToken io s token json ∧
          ((FsAuth.publish hashToken io.auth s.auth token json.name).1 = .ok () →
            ¬ CleansOther L sha256 io s json crateBytes) := by
  rcases hr : receive L authorization body with _ | ⟨e' | ⟨token, json, t⟩⟩
  · unfold publish at h
    rw [hr] at h
    cases h
  · unfold publish
    rw [hr]
    exact ⟨fun _ _ _ _ hok => (by cases hok), fun _ => ⟨rfl, rfl, rfl, rfl⟩⟩
  · rw [unchanged_iff_of_receive hr hnew hold h]
    constructor
    · intro hone token' json' t' heq
      cases heq
      exact hone
    · exact fun hall => hall token json t rfl

/-! ## A claim that a refused request leaves -/

section Refused

open FsAuth (tokenZero tokenToStr testHash)

/-- The name "a.b" is not allowed, so `user1` is answered with an error; but the crate is owned
now. -/
theorem claim_left_behind :
    let p := { Publish.empty with name := "a.b" }
    let out := publish Libs.canonical testHash abcHash {} (registered ∅)
      (authorizationOf tokenZero) (request p)
    (∃ e, out.1 = .error e) ∧ FsAuth.Present out.2.auth "a.b" ∧
      ¬ Unchanged (registered ∅) out.2 := by
  intro p out
  have hnone : ¬ FsAuth.Present (registered ∅).auth p.name := by
    rintro ⟨o, ho, hmem⟩
    cases ho
    exact absurd hmem (by decide)
  have hload : FsAuth.ownersMut {} (registered ∅).auth = .ok _ := rfl
  obtain ⟨hok, hpresent⟩ := FsAuth.publish_claims hload (resolves_registered ∅) hnone
  have hrefused : ¬ FsIndex.Accepts Libs.canonical {} (fun _ => none) p := by
    rintro ⟨lock, hlock, -⟩
    have hname : FsIndex.accessCrate p.name = .error .crateNameNotAllowed := by decide
    rw [hname] at hlock
    cases hlock
  have hreceive : receive Libs.canonical (authorizationOf tokenZero) (request p) =
      some (.ok (tokenToStr tokenZero, p, [97, 98, 99])) :=
      receive_request (by decide +kernel)
  let s' : Stores := { registered ∅ with
    auth := (FsAuth.publish testHash {} (registered ∅).auth (tokenToStr tokenZero) p.name).2 }
  have hindex : ∃ e, publishAuthorized Libs.canonical abcHash {} s' p [97, 98, 99] =
      (.error (.index e), s') := publishAuthorized_of_not_accepts abcHash [97, 98, 99] hrefused
  obtain ⟨e, he⟩ := hindex
  have hout : out = (.error (.index e), s') := (publish_of_receive hreceive hok).trans he
  have hclaim : TakesClaim testHash {} (registered ∅) (tokenToStr tokenZero) p :=
    ⟨_, _, hload, resolves_registered ∅, hnone⟩
  rw [hout]
  exact ⟨⟨_, rfl⟩, hpresent, not_unchanged_of_takesClaim hclaim rfl⟩

/-- The owner's upload fails. -/
theorem nothing_left_iff_upload :
    let s := registered (AList.singleton "foo" {"user1"})
    Unchanged s (publish Libs.canonical testHash abcHash { putCrateFails := true } s
      (authorizationOf tokenZero) (request foo)).2 := by
  intro s
  let io : Io := { putCrateFails := true }
  let s' : Stores := { s with
    auth := (FsAuth.publish testHash io.auth s.auth (tokenToStr tokenZero) foo.name).2 }
  have hreceive : receive Libs.canonical (authorizationOf tokenZero) (request foo) =
      some (.ok (tokenToStr tokenZero, foo, [97, 98, 99])) :=
      receive_request (by decide +kernel)
  have hok : (FsAuth.publish testHash io.auth s.auth (tokenToStr tokenZero) foo.name).1 =
      .ok () := by decide +kernel
  have haccepts : FsIndex.Accepts Libs.canonical io.index s'.files foo :=
    ⟨⟨"foo", "index/3/f/foo"⟩, by decide, Or.inl rfl⟩
  obtain ⟨path, data, hp⟩ := publishAuthorized_of_accepts abcHash [97, 98, 99] haccepts
  have herror : (publish Libs.canonical testHash abcHash io s (authorizationOf tokenZero)
      (request foo)).1 = .error (.index .serviceError) := by
    rw [publish_of_receive hreceive hok, hp]
    rfl
  refine (nothing_left_iff Libs.canonical testHash abcHash io s (authorizationOf tokenZero)
    (request foo) _ rfl rfl herror).mpr fun token json crateBytes hr => ?_
  cases hreceive.symm.trans hr
  refine ⟨?_, fun _ hclean => absurd hclean.2.1 (by decide)⟩
  rintro ⟨o, login, -, -, hn⟩
  exact hn ⟨_, rfl, by decide⟩

end Refused

end Server

end Freighter
