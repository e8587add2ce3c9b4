import Freighter.Auth.Provenance
import Freighter.FsIndex.History
import Freighter.Lib.Run
import Freighter.Server.Handlers

/-!
# Who changes the index files

The access check looks up the name as it is sent, the index the file of its lower-case form. A run
of publish, yank and unyank requests, with any calls on the auth provider in between.

* `ApiCall`, `handle`; `ApiCall.check`: the access check of a request;
* `handle_index`, `handle_auth`: what a request does; `Created`: the file of a crate that was
  published under a name;
* `Respells`: a request that passes its check under another spelling than the file was created
  under; **`isolated_of_no_respelling`**.
-/

namespace Freighter

namespace Server

open FsIndex (IndexOp Contents contentsOf Effect keyPath)

inductive ApiCall where
  | publish (authorization : Option Bytes) (body : Bytes)
  | yank (flag : Bool) (authorization : Option Bytes) (name : String) (version : Version)
  | auth (c : FsAuth.Call)

inductive Answer where
  | published (r : Response CompletedPublication)
  | yanked (r : Response Unit)
  | auth (r : AuthResult FsAuth.Reply)

variable (L : Libs) (hashToken : BareToken → HashedToken) (sha256 : Bytes → Checksum)

def handle (s : Stores) (e : Io × ApiCall) : Answer × Stores :=
  match e.2 with
  | .publish authorization body =>
    (publish L hashToken sha256 e.1 s authorization body).map .published id
  | .yank flag authorization name version =>
    (yank L hashToken flag e.1 s authorization name version).map .yanked id
  | .auth c =>
    let (r, auth) := FsAuth.call hashToken s.auth e.1.auth c
    (.auth r, { s with auth })

/-- The access check of a request. -/
def ApiCall.check : ApiCall → Option FsAuth.Call
  | .publish authorization body =>
    match receive L authorization body with
    | some (.ok (token, json, _)) => some (.publish token json.name)
    | _ => none
  | .yank _ authorization name _ =>
    match requireToken authorization with
    | .ok token => some (.authYank token name)
    | .error _ => none
  | .auth _ => none

/-- The request passes its access check, with this token and this name. -/
def Passes (s : Stores) (e : Io × ApiCall) (token name : String) : Prop :=
  ∃ c r, e.2.check L = some c ∧ c.checks = some (token, name) ∧
    (FsAuth.call hashToken s.auth e.1.auth c).1 = .ok r

/-- The request publishes the crate under the name `n`, which has no index file yet. -/
def Creates (s : Stores) (e : Io × ApiCall) (n : String) : Prop :=
  (∃ token, e.2.check L = some (.publish token n)) ∧
    (∃ r, (handle L hashToken sha256 s e).1 = .published (.ok r)) ∧
    s.files (keyPath (toAsciiLowercase n)) = none

/-- The request passes its access check under a name that is not the name of the first entry of its
index file. -/
def Respells (s : Stores) (e : Io × ApiCall) : Prop :=
  ∃ token name c v, Passes L hashToken s e token name ∧
    contentsOf L s.files (keyPath (toAsciiLowercase name)) = some c ∧ c.1.head? = some v ∧
    v.name ≠ name

/-- The crate has owners, and a file whose first entry was published under the name. -/
structure Created (n : String) (s : Stores) : Prop where
  present : FsAuth.Present s.auth n
  file : ∃ c v, contentsOf L s.files (keyPath (toAsciiLowercase n)) = some c ∧
    c.1.head? = some v ∧ v.name = n

variable {L hashToken sha256} {s : Stores} {e : Io × ApiCall} {n : String}

/-! ## What a request does -/

variable (L sha256) in
/-- What a publish does to the index once it is authorised. -/
theorem publishAuthorized_effect (io : Io) (s : Stores) (json : Publish) (crateBytes : Bytes) :
    let out := publishAuthorized L sha256 io s json crateBytes
    out.2.auth = s.auth ∧ ((∃ e, out.1 = .error e) ∧ out.2.files = s.files ∨
      Effect L s.files out.2.files (.publish json (sha256 crateBytes))) := by
  have heffect := FsIndex.publish_effect L io.index s.files json (sha256 crateBytes)
    (endStep sha256 io json crateBytes) (false, s.bucket)
  unfold publishAuthorized
  rcases hp : FsIndex.publish L io.index s.files json (sha256 crateBytes)
    (endStep sha256 io json crateBytes) (false, s.bucket) with ⟨e | r, files, stored, bucket⟩
  · rw [hp] at heffect
    cases stored with
    | false => exact ⟨rfl, heffect.imp (fun h => ⟨⟨_, rfl⟩, h.2⟩) id⟩
    | true => exact ⟨rfl, heffect.imp (fun h => ⟨⟨_, rfl⟩, h.2⟩) id⟩
  · rw [hp] at heffect
    rcases heffect with ⟨⟨e, he⟩, -⟩ | heffect
    · cases he
    · cases stored with
      | false => exact ⟨rfl, Or.inr heffect⟩
      | true => exact ⟨rfl, Or.inr heffect⟩

/-- What a publish request does to the index. -/
theorem publish_index (s : Stores) (io : Io) (authorization : Option Bytes) (body : Bytes) :
    (handle L hashToken sha256 s (io, .publish authorization body)).2.files = s.files ∨
      ∃ token op, Passes L hashToken s (io, .publish authorization body) token op.crateName ∧
        Effect L s.files (handle L hashToken sha256 s (io, .publish authorization body)).2.files
          op := by
  simp only [handle, publish, Prod.map, id]
  rcases hr : receive L authorization body with _ | ⟨err | ⟨token, json, t⟩⟩
  · exact Or.inl rfl
  · exact Or.inl rfl
  · simp only
    cases hp : FsAuth.publish hashToken io.auth s.auth token json.name with
    | mk r auth =>
      cases r with
      | error err => exact Or.inl rfl
      | ok _ =>
        simp only
        rcases (publishAuthorized_effect L sha256 io { s with auth } json t).2 with
          ⟨-, hf⟩ | heffect
        · exact Or.inl hf
        · refine Or.inr ⟨token, .publish json (sha256 t), ?_, heffect⟩
          refine ⟨.publish token json.name, .done, ?_, rfl, ?_⟩
          · simp only [ApiCall.check, hr]
          · simp only [FsAuth.call, hp, Prod.map, Except.map]

/-- What a yank or unyank request does to the index. -/
theorem yank_index (s : Stores) (io : Io) (flag : Bool) (authorization : Option Bytes)
    (name : String) (version : Version) :
    (handle L hashToken sha256 s (io, .yank flag authorization name version)).2.files = s.files ∨
      ∃ token op,
        Passes L hashToken s (io, .yank flag authorization name version) token op.crateName ∧
        Effect L s.files
          (handle L hashToken sha256 s (io, .yank flag authorization name version)).2.files op := by
  simp only [handle, yank, Prod.map, id]
  cases ht : requireToken authorization with
  | error err => exact Or.inl rfl
  | ok token =>
    simp only
    cases hp : FsAuth.authYank hashToken io.auth s.auth token name with
    | mk r auth =>
      cases r with
      | error err => exact Or.inl rfl
      | ok _ =>
        have heffect := FsIndex.yankInner_effect L io.index s.files name version flag
        simp only
        rcases hy : FsIndex.yankInner L io.index s.files name version flag with ⟨err | _, files⟩
        all_goals
          rw [hy] at heffect
          rcases heffect with hf | heffect
          · exact Or.inl hf
          · refine Or.inr ⟨token, .yank name version flag, ?_, heffect⟩
            refine ⟨.authYank token name, .done, ?_, rfl, ?_⟩
            · simp only [ApiCall.check, ht]
            · simp only [FsAuth.call, hp, Prod.map, Except.map]

/-- **A request changes the index only behind its access check**, and the file of the name that it
sends. -/
theorem handle_index (s : Stores) (e : Io × ApiCall) :
    (handle L hashToken sha256 s e).2.files = s.files ∨
      ∃ token op, Passes L hashToken s e token op.crateName ∧
        Effect L s.files (handle L hashToken sha256 s e).2.files op := by
  obtain ⟨io, call⟩ := e
  cases call with
  | auth c => exact Or.inl rfl
  | publish authorization body => exact publish_index s io authorization body
  | yank flag authorization name version => exact yank_index s io flag authorization name version

/-- A request makes at most one call on the auth provider. -/
theorem handle_auth (s : Stores) (e : Io × ApiCall) :
    (handle L hashToken sha256 s e).2.auth = s.auth ∨
      ∃ c, (handle L hashToken sha256 s e).2.auth =
        (FsAuth.call hashToken s.auth e.1.auth c).2 := by
  obtain ⟨io, call⟩ := e
  cases call with
  | auth c => exact Or.inr ⟨c, rfl⟩
  | publish authorization body =>
    simp only [handle, publish, Prod.map, id]
    rcases receive L authorization body with _ | ⟨err | ⟨token, json, t⟩⟩
    · exact Or.inl rfl
    · exact Or.inl rfl
    · refine Or.inr ⟨.publish token json.name, ?_⟩
      simp only [FsAuth.call, Prod.map, id]
      cases hp : FsAuth.publish hashToken io.auth s.auth token json.name with
      | mk r auth =>
        cases r with
        | error err => rfl
        | ok _ =>
          simp only
          rw [(publishAuthorized_effect L sha256 io { s with auth } json t).1]
  | yank flag authorization name version =>
    simp only [handle, yank, Prod.map, id]
    cases requireToken authorization with
    | error err => exact Or.inl rfl
    | ok token =>
      refine Or.inr ⟨.authYank token name, ?_⟩
      simp only [FsAuth.call, Prod.map, id]
      cases hp : FsAuth.authYank hashToken io.auth s.auth token name with
      | mk r auth =>
        cases r with
        | error err => rfl
        | ok _ =>
          simp only
          rcases FsIndex.yankInner L io.index s.files name version flag with ⟨err | _, files⟩
          · rfl
          · rfl

/-! ## The file of a crate -/

/-- A publish request that is answered with success passed its check and wrote its entry. -/
theorem handle_published {r : CompletedPublication}
    (h : (handle L hashToken sha256 s e).1 = .published (.ok r)) :
    ∃ authorization body token json t, e.2 = .publish authorization body ∧
      receive L authorization body = some (.ok (token, json, t)) ∧
      FsAuth.publish hashToken e.1.auth s.auth token json.name =
        (.ok (), (handle L hashToken sha256 s e).2.auth) ∧
      Effect L s.files (handle L hashToken sha256 s e).2.files (.publish json (sha256 t)) := by
  obtain ⟨io, call⟩ := e
  cases call with
  | auth c => cases h
  | yank flag authorization name version => cases h
  | publish authorization body =>
    refine ⟨authorization, body, ?_⟩
    simp only [handle, publish, Prod.map, id, Answer.published.injEq] at h ⊢
    rcases hreceive : receive L authorization body with _ | ⟨err | ⟨token, json, t⟩⟩
    · rw [hreceive] at h
      cases h
    · rw [hreceive] at h
      cases h
    · rw [hreceive] at h
      refine ⟨token, json, t, trivial, rfl, ?_⟩
      simp only at h ⊢
      cases hp : FsAuth.publish hashToken io.auth s.auth token json.name with
      | mk ra auth =>
        rw [hp] at h
        cases ra with
        | error err => cases h
        | ok _ =>
          simp only at h ⊢
          have heffect : _ ∧ _ := publishAuthorized_effect L sha256 io
            { s with auth } json t
          obtain ⟨hauth, ⟨⟨err, herr⟩, -⟩ | heffect⟩ := heffect
          · rw [h] at herr
            cases herr
          · exact ⟨by rw [hauth], heffect⟩

/-- The request that creates the file. -/
theorem created_of_creates (h : Creates L hashToken sha256 s e n) :
    Created L n (handle L hashToken sha256 s e).2 := by
  obtain ⟨⟨token, hcheck⟩, ⟨r, hr⟩, hnone⟩ := h
  obtain ⟨authorization, body, token', json, t, hcall, hreceive, hauth, heffect⟩ :=
    handle_published hr
  simp only [hcall, ApiCall.check, hreceive, Option.some.injEq, FsAuth.Call.publish.injEq]
    at hcheck
  obtain ⟨rfl, rfl⟩ := hcheck
  constructor
  · have hcall : FsAuth.call hashToken s.auth e.1.auth (.publish token' json.name) =
        (.ok .done, (handle L hashToken sha256 s e).2.auth) := by
      simp only [FsAuth.call, hauth, Prod.map, Except.map, id]
    have hsnd : (FsAuth.call hashToken s.auth e.1.auth (.publish token' json.name)).2 =
        (handle L hashToken sha256 s e).2.auth := congrArg Prod.snd hcall
    rw [← hsnd]
    obtain ⟨login, -, howns | ⟨-, -, howns⟩⟩ :=
      FsAuth.authorized_of_ok rfl (congrArg Prod.fst hcall)
    · exact FsAuth.present_step howns.present
    · exact howns.present
  · obtain ⟨entries, hentries, -, hafter⟩ := heffect.2
    have hempty : entries = [] := FsIndex.entries_of_absent hentries hnone
    subst hempty
    exact ⟨_, _, hafter, rfl, rfl⟩

/-- A file that was created stays. -/
theorem created_step (h : Created L n s) : Created L n (handle L hashToken sha256 s e).2 := by
  constructor
  · rcases handle_auth s e with hauth | ⟨c, hauth⟩
    · rw [hauth]
      exact h.present
    · rw [hauth]
      exact FsAuth.present_step h.present
  · obtain ⟨c, v, hc, hv, hname⟩ := h.file
    rcases handle_index s e with hfiles | ⟨token, op, -, heffect⟩
    · rw [hfiles]
      exact ⟨c, v, hc, hv, hname⟩
    · obtain ⟨c', v', hc', hv', hu⟩ := heffect.grows.head hc hv
      have hname' : (FsIndex.unflagged v').name = (FsIndex.unflagged v).name :=
        congrArg CrateVersion.name hu
      exact ⟨c', v', hc', hv', hname'.trans hname⟩

/-! ## Runs -/

/-- **As long as no request respells a name, only owners change the file of a crate.** Once a
publish request has created the file under the name `n`, every later request that changes it has a
token whose login owns `n` at that moment. -/
theorem isolated_of_no_respelling (L : Libs) (hashToken : BareToken → HashedToken)
    (sha256 : Bytes → Checksum) (s₀ : Stores) (calls : List (Io × ApiCall))
    (h : Run.Along (handle L hashToken sha256) (fun s e => ¬ Respells L hashToken s e) s₀ calls)
    (pre mid post : List (Io × ApiCall)) (e₀ e : Io × ApiCall) (n : String)
    (hcalls : calls = pre ++ e₀ :: mid ++ e :: post)
    (hcreates : Creates L hashToken sha256 (Run.final (handle L hashToken sha256) s₀ pre) e₀ n) :
    let s := Run.final (handle L hashToken sha256) s₀ (pre ++ e₀ :: mid)
    (handle L hashToken sha256 s e).2.files (keyPath (toAsciiLowercase n)) ≠
        s.files (keyPath (toAsciiLowercase n)) →
      ∃ token name login, Passes L hashToken s e token name ∧
        FsAuth.Resolves hashToken s.auth token login ∧ FsAuth.Owns s.auth n login := by
  intro s hchange
  have hcreated : Created L n s := by
    have hstart := created_of_creates hcreates
    change Created L n (Run.final (handle L hashToken sha256) s₀ (pre ++ e₀ :: mid))
    rw [Run.final_append, Run.final_cons]
    exact Run.final_invariant (I := Created L n) (fun _ _ hc => created_step hc) hstart mid
  have hspelling : ¬ Respells L hashToken s e := Run.along_iff.mp h _ e post hcalls
  obtain ⟨c, v, hc, hv, hname⟩ := hcreated.file
  rcases handle_index s e with hfiles | ⟨token, op, hpasses, heffect⟩
  · exact absurd (congrFun hfiles _) hchange
  · have hpath : keyPath (toAsciiLowercase n) = op.relPath := by
      by_contra hne
      exact hchange (heffect.1 _ hne)
    have hsame : op.crateName = n := by
      by_contra hne
      refine hspelling ⟨token, op.crateName, c, v, hpasses, ?_, hv, ?_⟩
      · change contentsOf L s.files op.relPath = some c
        rw [← hpath]
        exact hc
      · rw [hname]
        exact fun heq => hne heq.symm
    obtain ⟨c', r, hcheck, hchecks, hok⟩ := hpasses
    obtain ⟨login, hlogin, howns⟩ := FsAuth.authorized_of_ok hchecks hok
    refine ⟨token, op.crateName, login, ⟨c', r, hcheck, hchecks, hok⟩, hlogin, ?_⟩
    rw [hsame] at howns
    rcases howns with howns | ⟨-, habsent, -⟩
    · exact howns
    · exact absurd hcreated.present habsent

/-! ## Two spellings of one name -/

section Spellings

open FsAuth (tokenZero tokenOne tokenToStr testHash)

/-- Version 0.0.0 of `Foo`. -/
def capitalFoo : Publish := { Publish.empty with name := "Foo" }

/-- Version 0.0.1 of `foo`, under either spelling. -/
def nextFoo (name : String) : Publish :=
  { Publish.empty with name, vers := Version.new 0 0 1 }

/-- The user with this token publishes `p`. -/
noncomputable def publishCall (bareToken : BareToken) (p : Publish) : Io × ApiCall :=
  ({}, .publish (authorizationOf bareToken) (request p))

theorem receive_capitalFoo :
    receive Libs.canonical (authorizationOf tokenZero) (request capitalFoo) =
      some (.ok (tokenToStr tokenZero, capitalFoo, [97, 98, 99])) :=
  receive_request (by decide +kernel)

/-- The check of a request that is well formed. -/
theorem check_publishCall {bareToken : BareToken} {p : Publish}
    (hr : receive Libs.canonical (authorizationOf bareToken) (request p) =
      some (.ok (tokenToStr bareToken, p, [97, 98, 99]))) :
    (publishCall bareToken p).2.check Libs.canonical =
      some (.publish (tokenToStr bareToken) p.name) := by
  simp only [publishCall, ApiCall.check, hr]

/-- A request that is well formed, authorised and accepted succeeds. -/
theorem handle_publishCall {bareToken : BareToken} {p : Publish}
    (hr : receive Libs.canonical (authorizationOf bareToken) (request p) =
      some (.ok (tokenToStr bareToken, p, [97, 98, 99])))
    (hok : (FsAuth.publish testHash {} s.auth (tokenToStr bareToken) p.name).1 = .ok ())
    (hacc : FsIndex.Accepts Libs.canonical {} s.files p) :
    (handle Libs.canonical testHash abcHash s (publishCall bareToken p)).1 =
      .published (.ok .noWarnings) := by
  simp only [handle, publishCall, Prod.map, publish_succeeds hr hok hacc]

/-- `user1` claims `Foo`. -/
theorem auth_capitalFoo :
    FsAuth.publish testHash {} (registered ∅).auth (tokenToStr tokenZero) capitalFoo.name =
      (.ok (), (registered (AList.singleton "Foo" {"user1"})).auth) := by
  have htoken : FsAuth.tokenFromStr testHash (tokenToStr tokenZero) = .ok (testHash tokenZero) :=
    FsAuth.tokenFromStr_tokenToStr tokenZero
  have hload : FsAuth.ownersMut {} (registered ∅).auth = .ok _ := rfl
  exact FsAuth.publish_claim htoken hload (AList.lookup_insert _) (by decide)

/-- `user1` creates the file of `Foo`. -/
theorem created_capitalFoo : ∃ s,
    (handle Libs.canonical testHash abcHash (registered ∅) (publishCall tokenZero capitalFoo)).2 =
      s ∧
    Creates Libs.canonical testHash abcHash (registered ∅) (publishCall tokenZero capitalFoo) "Foo" ∧
    (registered (AList.singleton "Foo" {"user1"})).auth = s.auth ∧
    contentsOf Libs.canonical s.files (keyPath (toAsciiLowercase "Foo")) =
      some ([FsIndex.release capitalFoo (abcHash [97, 98, 99])], some capitalFoo) := by
  have hok : (handle Libs.canonical testHash abcHash (registered ∅)
      (publishCall tokenZero capitalFoo)).1 = .published (.ok .noWarnings) := by
    refine handle_publishCall receive_capitalFoo ?_
      ⟨⟨"foo", "index/3/f/foo"⟩, by decide, Or.inl rfl⟩
    rw [auth_capitalFoo]
  have hcreates : Creates Libs.canonical testHash abcHash (registered ∅)
      (publishCall tokenZero capitalFoo) "Foo" :=
    ⟨⟨_, check_publishCall receive_capitalFoo⟩, ⟨_, hok⟩, rfl⟩
  obtain ⟨authorization, body, token, json, t, hcall, hr, hauth, heffect⟩ := handle_published hok
  cases hcall
  cases receive_capitalFoo.symm.trans hr
  have hio : (publishCall tokenZero capitalFoo).1.auth = {} := rfl
  rw [hio, auth_capitalFoo, Prod.mk.injEq] at hauth
  obtain ⟨s, hs⟩ : ∃ s, (handle Libs.canonical testHash abcHash (registered ∅)
      (publishCall tokenZero capitalFoo)).2 = s := ⟨_, rfl⟩
  rw [hs] at hauth heffect
  obtain ⟨entries, hentries, -, hfile⟩ := heffect.2
  have hempty : entries = [] := FsIndex.entries_of_absent hentries rfl
  subst hempty
  exact ⟨s, hs, hcreates, hauth.2, hfile⟩

/-- A publish of the next version of `foo` passes its check and changes the file. -/
theorem changed_of_nextFoo {bareToken : BareToken} {name : String}
    (hfile : contentsOf Libs.canonical s.files (keyPath (toAsciiLowercase name)) =
      some ([FsIndex.release capitalFoo (abcHash [97, 98, 99])], some capitalFoo))
    (hname : ∃ lock, FsIndex.accessCrate name = .ok lock ∧
      lock.relPath = keyPath (toAsciiLowercase name))
    (hr : receive Libs.canonical (authorizationOf bareToken) (request (nextFoo name)) =
      some (.ok (tokenToStr bareToken, nextFoo name, [97, 98, 99])))
    (hok : (FsAuth.publish testHash {} s.auth (tokenToStr bareToken) name).1 = .ok ()) :
    Passes Libs.canonical testHash s (publishCall bareToken (nextFoo name)) (tokenToStr bareToken)
      name ∧
    (handle Libs.canonical testHash abcHash s (publishCall bareToken (nextFoo name))).2.files
      (keyPath (toAsciiLowercase name)) ≠ s.files (keyPath (toAsciiLowercase name)) := by
  obtain ⟨lock, hlock, hpath⟩ := hname
  have hlacks : ∀ v ∈ [FsIndex.release capitalFoo (abcHash [97, 98, 99])],
      v.vers ≠ (nextFoo name).vers := by
    intro v hv
    rw [List.mem_singleton] at hv
    subst hv
    have hvers : Version.new 0 0 0 ≠ Version.new 0 0 1 := by decide
    exact hvers
  have hlocked : contentsOf Libs.canonical s.files lock.relPath =
      some ([FsIndex.release capitalFoo (abcHash [97, 98, 99])], some capitalFoo) := by
    rw [hpath]
    exact hfile
  have haccepts : FsIndex.Accepts Libs.canonical {} s.files (nextFoo name) :=
    FsIndex.accepts_of_contentsOf hlock hlocked hlacks
  have hdone := handle_publishCall hr hok haccepts
  obtain ⟨authorization, body, token, json, t, hcall, hr', hauth, heffect⟩ :=
    handle_published hdone
  cases hcall
  cases hr.symm.trans hr'
  constructor
  · refine ⟨.publish (tokenToStr bareToken) (nextFoo name).name, .done, ?_, rfl, ?_⟩
    · exact check_publishCall hr
    · simp only [FsAuth.call, hauth, Prod.map, Except.map]
  · intro hsame
    obtain ⟨entries, hentries, -, hafter⟩ := heffect.2
    have hold := FsIndex.contentsOf_of_hasEntries hentries hfile
    have hkept := (FsIndex.contentsOf_congr hsame).symm.trans hafter
    have hsamefile := congrArg Prod.fst (Option.some.inj (hfile.symm.trans hkept))
    rw [← hold] at hsamefile
    exact absurd (congrArg List.length hsamefile) (by simp)

/-- `user1` creates the file of `Foo`; then `user2`, who does not own `Foo`, adds a version to
it. -/
theorem respelled_by_other : ∃ s,
    (handle Libs.canonical testHash abcHash (registered ∅) (publishCall tokenZero capitalFoo)).2 =
      s ∧
    Creates Libs.canonical testHash abcHash (registered ∅) (publishCall tokenZero capitalFoo) "Foo" ∧
    (handle Libs.canonical testHash abcHash s (publishCall tokenOne (nextFoo "foo"))).2.files
      (keyPath (toAsciiLowercase "Foo")) ≠ s.files (keyPath (toAsciiLowercase "Foo")) ∧
    Passes Libs.canonical testHash s (publishCall tokenOne (nextFoo "foo")) (tokenToStr tokenOne)
      "foo" ∧
    ∀ login, FsAuth.Resolves testHash s.auth (tokenToStr tokenOne) login →
      ¬ FsAuth.Owns s.auth "Foo" login := by
  obtain ⟨s, hs, hcreates, hauth, hfile⟩ := created_capitalFoo
  have hlower : toAsciiLowercase "Foo" = toAsciiLowercase "foo" := by decide
  have hok : (FsAuth.publish testHash {} s.auth (tokenToStr tokenOne) "foo").1 = .ok () := by
    rw [← hauth]
    decide +kernel
  have hchanged := changed_of_nextFoo (hlower ▸ hfile)
    ⟨⟨"foo", "index/3/f/foo"⟩, by decide, by decide⟩ (receive_request (by decide +kernel)) hok
  refine ⟨s, hs, hcreates, ?_, hchanged.1, ?_⟩
  · rw [hlower]
    exact hchanged.2
  · rintro login ⟨token, o, htoken, ho, hlogin⟩ ⟨o', logins, ho', hlogins, hmem⟩
    rw [← hauth] at ho ho'
    cases ho
    cases ho'
    cases (FsAuth.tokenFromStr_tokenToStr tokenOne).symm.trans htoken
    have huser : login = "user2" := Option.some.inj (hlogin.symm.trans (by decide +kernel))
    have howner : logins = {"user1"} := Option.some.inj (hlogins.symm.trans (by decide +kernel))
    rw [huser, howner] at hmem
    exact absurd hmem (by decide)

/-- `user1` publishes `Foo` twice, and owns it the second time. -/
theorem isolated_of_no_respelling_twice : ∃ s login,
    (handle Libs.canonical testHash abcHash (registered ∅) (publishCall tokenZero capitalFoo)).2 =
      s ∧
    FsAuth.Owns s.auth "Foo" login := by
  obtain ⟨s, hs, hcreates, hauth, hfile⟩ := created_capitalFoo
  have hok : (FsAuth.publish testHash {} s.auth (tokenToStr tokenZero) "Foo").1 = .ok () := by
    rw [← hauth]
    decide +kernel
  have hreceive : receive Libs.canonical (authorizationOf tokenZero) (request (nextFoo "Foo")) =
      some (.ok (tokenToStr tokenZero, nextFoo "Foo", [97, 98, 99])) :=
    receive_request (by decide +kernel)
  have hchanged := changed_of_nextFoo hfile ⟨⟨"foo", "index/3/f/foo"⟩, by decide, by decide⟩
    hreceive hok
  have hspelling : Run.Along (handle Libs.canonical testHash abcHash)
      (fun s e => ¬ Respells Libs.canonical testHash s e) (registered ∅)
      [publishCall tokenZero capitalFoo, publishCall tokenZero (nextFoo "Foo")] := by
    refine ⟨?_, ?_, trivial⟩
    · rintro ⟨token, name, c, v, -, hc, -⟩
      cases hc
    · rw [hs]
      rintro ⟨token, name, c, v, ⟨call, r, hcheck, hchecks, -⟩, hc, hv, hne⟩
      cases (check_publishCall hreceive).symm.trans hcheck
      cases hchecks
      cases hfile.symm.trans hc
      cases hv
      exact hne rfl
  obtain ⟨token, name, login, -, -, howns⟩ := isolated_of_no_respelling Libs.canonical testHash
    abcHash (registered ∅) _ hspelling [] [] [] _ _ "Foo" rfl hcreates
    (by rw [List.nil_append, Run.final_cons, Run.final_nil, hs]; exact hchanged.2)
  rw [List.nil_append, Run.final_cons, Run.final_nil, hs] at howns
  exact ⟨s, login, hs, howns⟩

end Spellings

end Server

end Freighter
