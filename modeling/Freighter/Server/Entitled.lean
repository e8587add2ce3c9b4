import Freighter.Server.Accounts

/-!
# Who may speak for a crate

* `askAll`: the auth provider along a run; `serveAll_spec`: the server asks it and obeys;
* `Issued`, `Entitled`: whose a token is, and who has come to own a crate by right;
* `Sound`, **`sound_step`**: the tables say no more than that, in memory and in the file;
* `SpeaksFor`, **`Sound.served`**: a call is served for one who owns the crate at the time.
-/

namespace Freighter

namespace Server

open FsAuth (FsAuthProvider OwnersJson Owners Resolves Owns Present ownersMut ownersMut_ok
  syncOwners tokenFromStr)
open Routes (AccountExtractors Backend Extractors Failure ServiceConfig fsAuth)

/-! ## The auth provider along a run -/

section Provider

variable (L : Libs) (hashToken : BareToken → HashedToken) (cfg : ServiceConfig) (X : Extractors)
  (allowRegistration : Bool) (Y : AccountExtractors)

/-- What an event does to the auth provider, and what that answers. -/
def askAll (p : FsAuthProvider) (e : Event) : Option (AuthResult FsAuth.Reply) × FsAuthProvider :=
  match e, e.ask L cfg X allowRegistration Y with
  | .restart, _ => (none, FsAuth.new p.ownersJson)
  | _, none => (none, p)
  | _, some (io, call) => (FsAuth.call hashToken p io call).map some id

/-- The request was served. -/
def Output.accepted : Output → Prop
  | .crate r => ∃ a, r = .ok a
  | .account r => ∃ a, r = .ok a
  | .restarted => True

variable {L hashToken cfg X allowRegistration Y} {τ : Type}

end Provider

/-! ## Tokens and owners -/

section Entitled

variable (hashToken : BareToken → HashedToken) (ask : Event → Option (FsAuth.Io × FsAuth.Call))
  (provider : List Event → FsAuthProvider) (file : OwnersJson)

/-- The hash was in the file as that of a token of `login`, or a registration of `login` drew a
token with it. Such a registration was served, unless the tables could not be saved, for they keep
the token. -/
inductive Drawn : List Event → HashedToken → String → Prop
  | start {events token login o} (ho : ownersMut {} (FsAuth.new file) = .ok o)
      (hlogin : o.tokenOwners.lookup token = some login) : Drawn events token login
  | registered {pre post e io login bareToken}
      (hask : ask e = some (io, .register login bareToken))
      (hserved : (FsAuth.register hashToken io (provider pre) login bareToken).1 =
        if io.write = .failed then .error .serviceError
        else .ok (FsAuth.tokenToStr bareToken)) :
      Drawn (pre ++ e :: post) (hashToken bareToken) login

/-- The token is one of `login`. -/
def Issued (events : List Event) (tokenStr login : String) : Prop :=
  ∃ token, tokenFromStr hashToken tokenStr = .ok token ∧
    Drawn hashToken ask provider file events token login

/-- The token is one of `login`, by the tables of the time and by right. -/
structure Holds (events : List Event) (tokenStr login : String) : Prop where
  resolves : Resolves hashToken (provider events) tokenStr login
  issued : Issued hashToken ask provider file events tokenStr login

/-- Who has come to own a crate: an owner in the file; one whose publish was let through when the
crate had no owners; and whom one added who owned the crate at the time and had come to own it. Such
a request was served, unless the tables could not be saved, for they keep who was added. -/
inductive Entitled : List Event → String → String → Prop
  | start {events crateName login} (h : Owns (FsAuth.new file) crateName login) :
      Entitled events crateName login
  | claimed {pre post e io tokenStr crateName login}
      (hask : ask e = some (io, .publish tokenStr crateName))
      (hserved : (FsAuth.publish hashToken io (provider pre) tokenStr crateName).1 = .ok ())
      (hfree : ¬ Present (provider pre) crateName)
      (htoken : Holds hashToken ask provider file pre tokenStr login) :
      Entitled (pre ++ e :: post) crateName login
  | added {pre post e io tokenStr users crateName login owner}
      (hask : ask e = some (io, .addOwners tokenStr users crateName))
      (hserved : (FsAuth.addOwners hashToken io (provider pre) tokenStr users crateName).1 =
        if io.write = .failed then .error .serviceError else .ok ())
      (hmem : login ∈ users) (htoken : Holds hashToken ask provider file pre tokenStr owner)
      (howns : Owns (provider pre) crateName owner) (howner : Entitled pre crateName owner) :
      Entitled (pre ++ e :: post) crateName login

/-- The call of the event is made by one who owns the crate at the time and has come to own it, or
who comes to own it by this very call. -/
def SpeaksFor (pre : List Event) (e : Event) (call : FsAuth.Call)
    (tokenStr crateName login : String) : Prop :=
  Holds hashToken ask provider file pre tokenStr login ∧
    (Owns (provider pre) crateName login ∧
        Entitled hashToken ask provider file pre crateName login ∨
      call = .publish tokenStr crateName ∧ ¬ Present (provider pre) crateName ∧
        Owns (provider (pre ++ [e])) crateName login ∧
        Entitled hashToken ask provider file (pre ++ [e]) crateName login)

/-- What tables say has come about so. -/
structure Vouched (events : List Event) (tokenOwners : HashMap HashedToken String)
    (crateOwners : HashMap String (Finset String)) : Prop where
  tokens : ∀ token login, tokenOwners.lookup token = some login →
    Drawn hashToken ask provider file events token login
  owners : ∀ crateName logins login, crateOwners.lookup crateName = some logins →
    login ∈ logins → Entitled hashToken ask provider file events crateName login

/-- The tables in memory and those in the file are vouched for. -/
structure Sound (events : List Event) (p : FsAuthProvider) : Prop where
  memory : ∀ o, ownersMut {} p = .ok o →
    Vouched hashToken ask provider file events o.tokenOwners o.crateOwners
  file : ∀ tokenOwners crateOwners, p.ownersJson = .saved tokenOwners crateOwners →
    Vouched hashToken ask provider file events tokenOwners crateOwners

variable {hashToken ask provider file} {events : List Event} {crateName login : String}

theorem Drawn.append {token : HashedToken}
    (h : Drawn hashToken ask provider file events token login) (later : List Event) :
    Drawn hashToken ask provider file (events ++ later) token login := by
  cases h with
  | start ho hlogin => exact .start ho hlogin
  | registered hask hserved =>
    rw [List.append_assoc, List.cons_append]
    exact .registered hask hserved

theorem Entitled.append (h : Entitled hashToken ask provider file events crateName login)
    (later : List Event) :
    Entitled hashToken ask provider file (events ++ later) crateName login := by
  cases h with
  | start h => exact .start h
  | claimed hask hserved hfree htoken =>
    rw [List.append_assoc, List.cons_append]
    exact .claimed hask hserved hfree htoken
  | added hask hserved hmem htoken howns howner =>
    rw [List.append_assoc, List.cons_append]
    exact .added hask hserved hmem htoken howns howner

theorem Vouched.append {T : HashMap HashedToken String} {C : HashMap String (Finset String)}
    (h : Vouched hashToken ask provider file events T C) (later : List Event) :
    Vouched hashToken ask provider file (events ++ later) T C where
  tokens token login ht := (h.tokens token login ht).append later
  owners crateName logins login hc hm := (h.owners crateName logins login hc hm).append later

theorem Sound.append {p : FsAuthProvider} (h : Sound hashToken ask provider file events p)
    (later : List Event) : Sound hashToken ask provider file (events ++ later) p where
  memory o ho := (h.memory o ho).append later
  file T C hfile := (h.file T C hfile).append later

/-- A restart goes back to the file. -/
theorem Sound.restart {p : FsAuthProvider} (h : Sound hashToken ask provider file events p) :
    Sound hashToken ask provider file events (FsAuth.new p.ownersJson) where
  memory o ho := by
    cases hfile : p.ownersJson with
    | missing =>
      rw [hfile] at ho
      cases ho
      exact ⟨fun token login ht => (by cases ht), fun crateName logins login hc => (by cases hc)⟩
    | garbage =>
      rw [hfile] at ho
      cases ho
    | saved T C =>
      rw [hfile] at ho
      cases ho
      exact h.file T C hfile
  file := h.file

/-- Tables that are vouched for may be saved. -/
theorem Sound.saved {p : FsAuthProvider} (h : Sound hashToken ask provider file events p)
    {o : Owners} (ho : Vouched hashToken ask provider file events o.tokenOwners o.crateOwners)
    (io : FsAuth.Io) :
    Sound hashToken ask provider file events ⟨some o, (syncOwners io o p.ownersJson).2⟩ where
  memory o' ho' := by
    cases ho'
    exact ho
  file T C hfile := by
    unfold syncOwners at hfile
    cases hw : io.write with
    | done =>
      rw [hw] at hfile
      cases hfile
      exact ho
    | failed =>
      rw [hw] at hfile
      exact h.file T C hfile
    | truncated =>
      rw [hw] at hfile
      cases hfile

theorem Sound.holds {p : FsAuthProvider} (h : Sound hashToken ask provider file events p)
    (hp : provider events = p) {tokenStr : String} (hr : Resolves hashToken p tokenStr login) :
    Holds hashToken ask provider file events tokenStr login := by
  refine ⟨hp.symm ▸ hr, ?_⟩
  obtain ⟨token, o, ht, ho, hl⟩ := hr
  exact ⟨token, ht, (h.memory o ho).tokens token login hl⟩

theorem Sound.entitled {p : FsAuthProvider} (h : Sound hashToken ask provider file events p)
    (howns : Owns p crateName login) :
    Entitled hashToken ask provider file events crateName login := by
  obtain ⟨o, logins, ho, hl, hm⟩ := howns
  exact (h.memory o ho).owners crateName logins login hl hm

/-- Tables that are vouched for and not saved. -/
theorem Sound.kept {p : FsAuthProvider} (h : Sound hashToken ask provider file events p)
    {o : Owners} (ho : Vouched hashToken ask provider file events o.tokenOwners o.crateOwners) :
    Sound hashToken ask provider file events ⟨some o, p.ownersJson⟩ where
  memory o' ho' := by
    cases ho'
    exact ho
  file := h.file

/-- A crate whose owners are replaced by ones who are entitled. -/
theorem Vouched.insert {T : HashMap HashedToken String} {C : HashMap String (Finset String)}
    (h : Vouched hashToken ask provider file events T C) {logins : Finset String}
    (hl : ∀ login ∈ logins, Entitled hashToken ask provider file events crateName login) :
    Vouched hashToken ask provider file events T (C.insert crateName logins) where
  tokens := h.tokens
  owners name logins' login hlookup hm := by
    by_cases hname : name = crateName
    · subst hname
      rw [AList.lookup_insert] at hlookup
      cases hlookup
      exact hl login hm
    · rw [AList.lookup_insert_ne hname] at hlookup
      exact h.owners name logins' login hlookup hm

/-- **A call keeps the tables sound.** -/
theorem sound_step {p : FsAuthProvider} (h : Sound hashToken ask provider file events p)
    (hp : provider events = p) {e : Event} {io : FsAuth.Io} {c : FsAuth.Call}
    (hask : ask e = some (io, c)) :
    Sound hashToken ask provider file (events ++ [e]) (FsAuth.call hashToken p io c).2 := by
  have hlater := h.append [e]
  rcases FsAuth.call_cases hashToken p io c with ⟨-, hsame⟩ | ⟨o, o', file', ho, hch, hnew⟩
  · rw [hsame]
    exact hlater
  · have ho' := ownersMut_ok ho
    have hvouched := hlater.memory o ho'
    have hholds : ∀ {tokenStr login token}, tokenFromStr hashToken tokenStr = .ok token →
        o.tokenOwners.lookup token = some login →
          Holds hashToken ask provider file events tokenStr login :=
      fun ht hl => h.holds hp ⟨_, o, ht, ho', hl⟩
    rw [hnew]
    cases hch with
    | same => exact hlater.kept hvouched
    | refused =>
      refine hlater.kept ?_
      rwa [FsAuth.tokenOwners_fillOwnerTokens, FsAuth.crateOwners_fillOwnerTokens]
    | @registered username bareToken _ hnot he =>
      subst he
      refine hlater.saved ?_ io
      refine ⟨fun token login ht => ?_, hvouched.owners⟩
      by_cases htoken : token = hashToken bareToken
      · subst htoken
        rw [AList.lookup_insert] at ht
        cases ht
        refine .registered hask ?_
        rw [hp]
        exact FsAuth.register_passed ho hnot bareToken
      · rw [AList.lookup_insert_ne htoken] at ht
        exact hvouched.tokens token login ht
    | claimed ht hl hc =>
      refine hlater.kept (hvouched.insert fun login hm => ?_)
      cases Finset.mem_singleton.mp hm
      refine .claimed hask ?_ ?_ (hholds ht hl)
      · rw [hp, FsAuth.publish_claim ht ho hl hc]
      · rw [hp]
        exact mt (FsAuth.present_iff ho').mp hc
    | added ht hl hc hm he =>
      subst he
      refine hlater.saved (hvouched.insert fun login hmem => ?_) io
      rcases Finset.mem_union.mp hmem with hold | hadded
      · exact hvouched.owners _ _ login hc hold
      · have howns : Owns p _ _ := ⟨o, _, ho', hc, hm⟩
        refine .added hask ?_ (List.mem_toFinset.mp hadded) (hholds ht hl) (hp.symm ▸ howns)
          (h.entitled howns)
        rw [hp]
        exact FsAuth.addOwners_passed ht ho hl hc hm _
    | removed ht hl hc hm he =>
      subst he
      refine hlater.saved (hvouched.insert fun login hmem => ?_) io
      exact hvouched.owners _ _ login hc (FsAuth.removeLoop_subset _ _ hmem)

/-- **Whom a call serves**: one who may speak for the crate. -/
theorem Sound.served {p : FsAuthProvider} (h : Sound hashToken ask provider file events p)
    (hp : provider events = p) {e : Event} {io : FsAuth.Io} {c : FsAuth.Call}
    (hask : ask e = some (io, c))
    (hnext : provider (events ++ [e]) = (FsAuth.call hashToken p io c).2) {tokenStr : String}
    {r : FsAuth.Reply} (hc : c.checks = some (tokenStr, crateName))
    (hr : (FsAuth.call hashToken p io c).1 = .ok r) :
    ∃ login, SpeaksFor hashToken ask provider file events e c tokenStr crateName login := by
  obtain ⟨login, htoken, howns⟩ := FsAuth.authorized_of_ok hc hr
  refine ⟨login, h.holds hp htoken, ?_⟩
  rcases howns with hold | ⟨hpublish, hfree, hnew⟩
  · exact Or.inl ⟨hp.symm ▸ hold, h.entitled hold⟩
  · exact Or.inr ⟨hpublish, hp.symm ▸ hfree, hnext.symm ▸ hnew,
      (sound_step h hp hask).entitled hnew⟩

end Entitled

end Server

end Freighter
