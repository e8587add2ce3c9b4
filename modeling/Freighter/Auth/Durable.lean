import Freighter.Auth.Effect

/-!
# Durability of the tables

A restart is a new provider on the same directory. A call that saves the tables leaves memory and
`owners.json` equal, but `publish` does not save the claim of a crate.

* `Durable`: loading the file gives the tables in memory.
* `Claims`: a `publish` that takes a crate without owners.
* **`outputs_restart`**: as long as restarts come in durable states and tokens are new, the
  answers are those of the run without its restarts.
* **`durable_iff_no_claim`**: every answered call leaves a durable state iff no call of the run
  claims a crate, and then restarts cannot be told from the answers.
-/

namespace Freighter

namespace FsAuth

variable (hashToken : BareToken → HashedToken)

/-! ## Runs with restarts -/

/-- An event: a call in which the file system does what it is asked to, or a restart. -/
inductive Event where
  | call (c : Call)
  | restart

def Event.call? : Event → Option Call
  | .call c => some c
  | .restart => none

/-- One event. -/
def step (p : FsAuthProvider) : Event → Option (AuthResult Reply) × FsAuthProvider
  | .call c => (call hashToken p {} c).map some id
  | .restart => (none, new p.ownersJson)

/-- The tables that `load_owners_file` gives are those in memory. -/
def Durable (p : FsAuthProvider) : Prop :=
  (loadOwnersFile {} p).map Owners.tables = (ownersMut {} p).map Owners.tables

/-- The event is a `publish` that claims a crate: its token has a login and the crate has no
owners. -/
def Claims (p : FsAuthProvider) : Event → Prop
  | .call (.publish tokenStr crateName) =>
    ∃ login, Resolves hashToken p tokenStr login ∧ ¬ Present p crateName
  | _ => False

/-- A registration draws a token whose hash is not stored yet. -/
def DrawsNew (p : FsAuthProvider) : Event → Prop
  | .call (.register _ bareToken) =>
    ∀ o, ownersMut {} p = .ok o → hashToken bareToken ∉ o.tokenOwners
  | _ => True

/-! ## Memory and file -/

section Durable

variable {hashToken} {p : FsAuthProvider}

theorem durable_new (file : OwnersJson) : Durable (new file) := rfl

theorem durable_saved (o : Owners) (file : OwnersJson) :
    Durable ⟨some o, (syncOwners {} o file).2⟩ := rfl

/-- A change of memory alone is durable iff it keeps the saved tables. -/
theorem Durable.iff_tables (h : Durable p) {o o' : Owners} (ho : ownersMut {} p = .ok o) :
    Durable ⟨some o', p.ownersJson⟩ ↔ o'.tables = o.tables := by
  unfold Durable at h ⊢
  rw [ho] at h
  change (loadOwnersFile {} p).map Owners.tables = .ok o'.tables ↔ _
  rw [h]
  exact ⟨fun e => (Except.ok.inj e).symm, fun e => congrArg Except.ok e.symm⟩

/-- **A call that claims nothing keeps memory and file equal.** -/
theorem durable_call (h : Durable p) {c : Call} (hc : ¬ Claims hashToken p (.call c)) :
    Durable (call hashToken p {} c).2 := by
  rcases call_cases hashToken p {} c with ⟨_, hp⟩ | ⟨o, o', file, ho, hch, hp⟩
  · rw [hp]
    exact h
  · rw [hp]
    cases hch with
    | same => exact (h.iff_tables ho).mpr rfl
    | refused => exact (h.iff_tables ho).mpr (tables_fillOwnerTokens o)
    | registered => exact durable_saved _ _
    | claimed ht hl hn =>
      exact absurd ⟨_, ⟨_, o, ht, ho, hl⟩, mt (present_iff ho).mp hn⟩ hc
    | added => exact durable_saved _ _
    | removed => exact durable_saved _ _

theorem durable_step (h : Durable p) {e : Event} (hc : ¬ Claims hashToken p e) :
    Durable (step hashToken p e).2 := by
  cases e with
  | call c => exact durable_call h hc
  | restart => exact durable_new _

/-- **A claim is answered with success and is not saved.** -/
theorem not_durable_of_claims (h : Durable p) {c : Call} (hc : Claims hashToken p (.call c)) :
    (call hashToken p {} c).1 = .ok .done ∧ ¬ Durable (call hashToken p {} c).2 := by
  cases c with
  | publish tokenStr crateName =>
    obtain ⟨login, ⟨token, o, ht, ho, hl⟩, hp⟩ := hc
    have hn : crateName ∉ o.crateOwners := mt (present_iff ho).mpr hp
    have hcall := publish_claim ht ho hl hn
    simp only [call, hcall, Prod.map, Except.map, id, true_and]
    rw [h.iff_tables ho]
    intro htables
    have hcrates : o.crateOwners.insert crateName {login} = o.crateOwners :=
      congrArg Prod.snd htables
    exact hn (hcrates ▸ (AList.mem_insert _).mpr (Or.inl rfl))
  | _ => exact hc.elim

end Durable

/-! ## The reverse index -/

/-- The reverse index is empty, to be rebuilt, or has the logins of the stored tokens. -/
def Owners.Indexed (o : Owners) : Prop :=
  o.ownerTokens.entries.isEmpty = false →
    ∀ login, login ∈ o.ownerTokens ↔ ∃ token, o.tokenOwners.lookup token = some login

section Indexed

variable {o : Owners}

/-- **Who is refused by `register`**: a login that has a token. -/
theorem mem_fillOwnerTokens (h : o.Indexed) {login : String} :
    login ∈ o.fillOwnerTokens.ownerTokens ↔
      ∃ token, o.tokenOwners.lookup token = some login := by
  unfold Owners.fillOwnerTokens
  by_cases he : o.ownerTokens.entries.isEmpty = true
  · rw [if_pos he]
    change login ∈ o.invert ↔ _
    rw [Owners.invert, HashMap.mem_collect]
    simp only [List.mem_map, Prod.mk.injEq, Prod.exists, HashMap.mem_iter]
    constructor
    · rintro ⟨token, _, l, hl, rfl, rfl⟩
      exact ⟨_, hl⟩
    · rintro ⟨token, hl⟩
      exact ⟨token, token, login, hl, rfl, rfl⟩
  · rw [if_neg he]
    exact h (by simpa using he) login

theorem indexed_fillOwnerTokens (h : o.Indexed) : o.fillOwnerTokens.Indexed := by
  intro _ login
  rw [mem_fillOwnerTokens h]
  unfold Owners.fillOwnerTokens
  split_ifs <;> rfl

theorem indexed_registered (h : o.Indexed) {login : String} {token : HashedToken}
    (ht : token ∉ o.tokenOwners) :
    Owners.Indexed { o with
      ownerTokens := o.fillOwnerTokens.ownerTokens.insert login token
      tokenOwners := o.tokenOwners.insert token login } := by
  intro _ l
  change l ∈ o.fillOwnerTokens.ownerTokens.insert login token ↔
    ∃ t, (o.tokenOwners.insert token login).lookup t = some l
  rw [AList.mem_insert, mem_fillOwnerTokens h]
  constructor
  · rintro (rfl | ⟨t, hl⟩)
    · exact ⟨token, AList.lookup_insert _⟩
    · have hne : t ≠ token := fun e => ht (e ▸ HashMap.mem_of_lookup hl)
      exact ⟨t, by rw [AList.lookup_insert_ne hne, hl]⟩
  · rintro ⟨t, hl⟩
    by_cases he : t = token
    · subst he
      rw [AList.lookup_insert] at hl
      exact Or.inl (Option.some.inj hl).symm
    · rw [AList.lookup_insert_ne he] at hl
      exact Or.inr ⟨t, hl⟩

end Indexed

/-! ## Restarts cannot be told -/

/-- The same saved tables in memory. -/
structure Twins (o o' : Owners) : Prop where
  tables : o'.tables = o.tables
  left : o.Indexed
  right : o'.Indexed

/-- The same file, and the same saved tables in memory. -/
def Agree (p q : FsAuthProvider) : Prop :=
  p.ownersJson = q.ownersJson ∧
    ((∃ e, ownersMut {} p = .error e ∧ ownersMut {} q = .error e) ∨
      ∃ o o', ownersMut {} p = .ok o ∧ ownersMut {} q = .ok o' ∧ Twins o o')

section Agree

variable {hashToken} {p q : FsAuthProvider}

theorem twins_iff {o o' : Owners} :
    Twins o o' ↔ o.Indexed ∧ ∃ x, o' = { o with ownerTokens := x } ∧
      Owners.Indexed { o with ownerTokens := x } := by
  constructor
  · rintro ⟨ht, hl, hr⟩
    have h1 : o'.tokenOwners = o.tokenOwners := congrArg Prod.fst ht
    have h2 : o'.crateOwners = o.crateOwners := congrArg Prod.snd ht
    have ho : o' = { o with ownerTokens := o'.ownerTokens } := by rw [← h1, ← h2]
    exact ⟨hl, o'.ownerTokens, ho, ho ▸ hr⟩
  · rintro ⟨hl, x, rfl, hr⟩
    exact ⟨rfl, hl, hr⟩

/-- Calls whose bodies treat equal tables alike agree. -/
theorem agree_withOwners {α : Type} {body : Owners → AuthResult α × Owners × OwnersJson}
    (hbody : ∀ o o', ownersMut {} p = .ok o → Twins o o' → (body o).1 = (body o').1 ∧
      Twins (body o).2.1 (body o').2.1 ∧ (body o).2.2 = (body o').2.2) (h : Agree p q) :
    (withOwners {} p body).1 = (withOwners {} q body).1 ∧
      Agree (withOwners {} p body).2 (withOwners {} q body).2 := by
  unfold withOwners
  rcases h with ⟨hf, ⟨e, hp, hq⟩ | ⟨o, o', hp, hq, ht⟩⟩
  · rw [hp, hq]
    exact ⟨rfl, hf, Or.inl ⟨e, hp, hq⟩⟩
  · rw [hp, hq]
    obtain ⟨h1, h2, h3⟩ := hbody o o' hp ht
    exact ⟨h1, h3, Or.inr ⟨_, _, rfl, rfl, h2⟩⟩

/-- The body of a call does not use the reverse index, and keeps it and the stored tokens. -/
def Blind {α : Type} (body : Owners → AuthResult α × Owners × OwnersJson) : Prop :=
  ∀ o x, body { o with ownerTokens := x } =
      ((body o).1, { (body o).2.1 with ownerTokens := x }, (body o).2.2) ∧
    (body o).2.1.tokenOwners = o.tokenOwners

theorem Blind.agree {α : Type} {f : AuthResult α → AuthResult Reply}
    {body : Owners → AuthResult α × Owners × OwnersJson} (hbody : Blind body) (h : Agree p q) :
    f (withOwners {} p body).1 = f (withOwners {} q body).1 ∧
      Agree (withOwners {} p body).2 (withOwners {} q body).2 := by
  refine and_imp.mpr (fun h1 h2 => ⟨congrArg f h1, h2⟩) (agree_withOwners (fun o o' _ ht => ?_) h)
  obtain ⟨hl, x, rfl, hr⟩ := twins_iff.mp ht
  obtain ⟨hx, hkeep⟩ := hbody o x
  have hself : (body o).2.1 = { (body o).2.1 with ownerTokens := o.ownerTokens } :=
    congrArg (·.2.1) (hbody o o.ownerTokens).1
  rw [hx]
  refine ⟨rfl, twins_iff.mpr ⟨?_, x, rfl, ?_⟩, rfl⟩
  · rw [hself]
    unfold Owners.Indexed at hl ⊢
    rw [hkeep]
    exact hl
  · unfold Owners.Indexed at hr ⊢
    rw [hkeep]
    exact hr

/-- The same for a call that resolves a token first. -/
theorem agree_resolved {tokenStr : String}
    {body : HashedToken → Owners → AuthResult Unit × Owners × OwnersJson}
    (hbody : ∀ token, Blind (body token)) (h : Agree p q) :
    let r (p : FsAuthProvider) : AuthResult Unit × FsAuthProvider :=
      match tokenFromStr hashToken tokenStr with
      | .error e => (.error e, p)
      | .ok hashedToken => withOwners {} p (body hashedToken)
    (r p).1.map (fun _ => Reply.done) = (r q).1.map (fun _ => Reply.done) ∧
      Agree (r p).2 (r q).2 := by
  cases tokenFromStr hashToken tokenStr with
  | error e => exact ⟨rfl, h⟩
  | ok token =>
    exact (hbody token).agree h

theorem ensureAuthorizedForCrate_ownerTokens (o : Owners) (x : HashMap String HashedToken)
    (token : HashedToken) (crateName : String) :
    Owners.ensureAuthorizedForCrate { o with ownerTokens := x } token crateName =
      o.ensureAuthorizedForCrate token crateName := rfl

theorem claim_ownerTokens (o : Owners) (x : HashMap String HashedToken) (token : HashedToken)
    (crateName : String) :
    Owners.claim { o with ownerTokens := x } token crateName =
      (o.claim token crateName).map fun o' => { o' with ownerTokens := x } := by
  unfold Owners.claim
  by_cases hc : crateName ∈ o.crateOwners
  · rw [if_pos hc, if_pos hc]
    rfl
  · rw [if_neg hc, if_neg hc]
    change (o.loginForToken token).map _ = _
    cases o.loginForToken token <;> rfl

theorem claim_tokenOwners {o o' : Owners} {token : HashedToken} {crateName : String}
    (h : o.claim token crateName = .ok o') : o'.tokenOwners = o.tokenOwners := by
  unfold Owners.claim at h
  split_ifs at h
  · cases h
    rfl
  · cases hl : o.loginForToken token with
    | error e => rw [hl] at h; cases h
    | ok login =>
      rw [hl] at h
      cases h
      rfl

theorem agree_register {username : String} {bareToken : BareToken} (h : Agree p q)
    (hnew : DrawsNew hashToken p (.call (.register username bareToken))) :
    (register hashToken {} p username bareToken).1 =
        (register hashToken {} q username bareToken).1 ∧
      Agree (register hashToken {} p username bareToken).2
        (register hashToken {} q username bareToken).2 := by
  unfold register
  rw [← h.1]
  refine agree_withOwners (fun o o' ho ht => ?_) h
  obtain ⟨hl, x, rfl, hr⟩ := twins_iff.mp ht
  have hmem : username ∈ o.fillOwnerTokens.ownerTokens ↔
      username ∈ (Owners.fillOwnerTokens { o with ownerTokens := x }).ownerTokens := by
    rw [mem_fillOwnerTokens hl, mem_fillOwnerTokens hr]
  have h1 := tables_fillOwnerTokens o
  have h2 := tables_fillOwnerTokens { o with ownerTokens := x }
  simp only [Owners.tables, Prod.mk.injEq] at h1 h2
  unfold Owners.register
  by_cases hu : username ∈ o.fillOwnerTokens.ownerTokens
  · rw [if_pos hu, if_pos (hmem.mp hu)]
    refine ⟨rfl, ⟨?_, indexed_fillOwnerTokens hl, indexed_fillOwnerTokens hr⟩, rfl⟩
    rw [tables_fillOwnerTokens, tables_fillOwnerTokens]
    rfl
  · rw [if_neg hu, if_neg (mt hmem.mpr hu), h1.1, h1.2, h2.1, h2.2]
    refine ⟨rfl, ⟨rfl, ?_, ?_⟩, rfl⟩
    · exact indexed_registered hl (hnew o ho)
    · exact indexed_registered hr (hnew o ho)

/-- **Equal tables give equal answers and equal tables.** -/
theorem agree_call {c : Call} (h : Agree p q) (hnew : DrawsNew hashToken p (.call c)) :
    (call hashToken p {} c).1 = (call hashToken q {} c).1 ∧
      Agree (call hashToken p {} c).2 (call hashToken q {} c).2 := by
  cases c with
  | register username bareToken =>
    obtain ⟨h1, h2⟩ := agree_register h hnew
    exact ⟨congrArg (·.map Reply.token) h1, h2⟩
  | listOwners crateName =>
    simp only [call, listOwners, ← h.1]
    refine Blind.agree (f := (·.map Reply.logins)) (fun o x => ?_) h
    cases o.crateOwners.lookup crateName <;> simp only [and_self]
  | addOwners tokenStr users crateName =>
    simp only [call, addOwners, ← h.1]
    refine agree_resolved (fun token o x => ?_) h
    rw [ensureAuthorizedForCrate_ownerTokens]
    cases o.ensureAuthorizedForCrate token crateName with
    | error e => exact ⟨rfl, rfl⟩
    | ok _ => cases o.crateOwners.lookup crateName <;> exact ⟨rfl, rfl⟩
  | removeOwners tokenStr users crateName =>
    simp only [call, removeOwners, ← h.1]
    refine agree_resolved (fun token o x => ?_) h
    rw [ensureAuthorizedForCrate_ownerTokens]
    cases o.ensureAuthorizedForCrate token crateName with
    | error e => exact ⟨rfl, rfl⟩
    | ok _ => cases o.crateOwners.lookup crateName <;> exact ⟨rfl, rfl⟩
  | publish tokenStr crateName =>
    simp only [call, publish, ← h.1]
    refine agree_resolved (fun token o x => ?_) h
    rw [claim_ownerTokens]
    cases hc : o.claim token crateName with
    | error e => exact ⟨rfl, rfl⟩
    | ok o' => exact ⟨rfl, claim_tokenOwners hc⟩
  | authYank tokenStr crateName =>
    simp only [call, authYank, ← h.1]
    exact agree_resolved (fun token o x => ⟨rfl, rfl⟩) h
  | ensureValidToken tokenStr =>
    simp only [call, ensureValidToken, ← h.1]
    exact agree_resolved (fun token o x => ⟨rfl, rfl⟩) h

end Agree

/-! ## The runs -/

variable {hashToken}

theorem indexed_of_load {file : OwnersJson} {o : Owners}
    (h : loadOwnersFile {} (new file) = .ok o) : o.Indexed := by
  cases file <;> cases h <;> exact fun he => nomatch he

/-- A restart in a durable state agrees with going on. -/
theorem agree_restart {p q : FsAuthProvider} (h : Agree p q) (hd : Durable p) :
    Agree (new p.ownersJson) q := by
  have hload : (ownersMut {} (new p.ownersJson)).map Owners.tables =
      (ownersMut {} p).map Owners.tables := hd
  refine ⟨h.1, ?_⟩
  rcases h.2 with ⟨e, hp, hq⟩ | ⟨o, o', hp, hq, ht⟩
  · rw [hp] at hload
    cases hl : ownersMut {} (new p.ownersJson) with
    | error e' =>
      rw [hl] at hload
      exact Or.inl ⟨e, congrArg Except.error (Except.error.inj hload), hq⟩
    | ok o => rw [hl] at hload; cases hload
  · rw [hp] at hload
    cases hl : ownersMut {} (new p.ownersJson) with
    | error e' => rw [hl] at hload; cases hload
    | ok o₀ =>
      rw [hl] at hload
      have htables : o₀.tables = o.tables := Except.ok.inj hload
      exact Or.inr ⟨o₀, o', rfl, hq, ht.tables.trans htables.symm, indexed_of_load hl, ht.right⟩

theorem agree_new (file : OwnersJson) : Agree (new file) (new file) := by
  refine ⟨rfl, ?_⟩
  cases ho : ownersMut {} (new file) with
  | error e => exact Or.inl ⟨e, rfl, rfl⟩
  | ok o => exact Or.inr ⟨o, o, rfl, rfl, rfl, indexed_of_load ho, indexed_of_load ho⟩

/-- **Restarts cannot be told**: as long as every restart comes in a durable state and every
registration draws a new token, the answers are those of the run without its restarts. -/
theorem outputs_restart {events : List Event} {p q : FsAuthProvider} (h : Agree p q)
    (hnew : Run.Along (step hashToken) (DrawsNew hashToken) p events)
    (hd : Run.Along (step hashToken) (fun p e => e = .restart → Durable p) p events) :
    (Run.outputs (step hashToken) p events).reduceOption =
      Run.outputs (fun p c => call hashToken p {} c) q (events.filterMap Event.call?) := by
  induction events generalizing p q with
  | nil => rfl
  | cons e events ih =>
    cases e with
    | call c =>
      obtain ⟨h1, h2⟩ := agree_call h hnew.1
      have hrest := ih h2 hnew.2 hd.2
      change (call hashToken p {} c).1 :: _ = (call hashToken q {} c).1 :: _
      rw [h1]
      exact congrArg _ hrest
    | restart => exact ih (agree_restart h (hd.1 rfl)) hnew.2 hd.2

theorem durable_final {file : OwnersJson} {events : List Event}
    (h : Run.Along (step hashToken) (fun p e => ¬ Claims hashToken p e) (new file) events) :
    Durable (Run.final (step hashToken) (new file) events) :=
  Run.Along.final (I := Durable) (fun _ _ hd hc => durable_step hd hc) h (durable_new file)

/-- The first claim of a run would come in a durable state and end in one that is not. -/
theorem no_claim_of_durable {events : List Event} {p : FsAuthProvider} (hp : Durable p)
    (h : ∀ pre c post r p', events = pre ++ .call c :: post →
      step hashToken (Run.final (step hashToken) p pre) (.call c) = (some (.ok r), p') →
      Durable p') :
    Run.Along (step hashToken) (fun p e => ¬ Claims hashToken p e) p events := by
  induction events generalizing p with
  | nil => trivial
  | cons e events ih =>
    have hc : ¬ Claims hashToken p e := by
      cases e with
      | call c =>
        intro hcl
        obtain ⟨h1, h2⟩ := not_durable_of_claims hp hcl
        exact h2 (h [] c events .done _ rfl (Prod.ext (congrArg some h1) rfl))
      | restart => exact id
    refine ⟨hc, ih (durable_step hp hc) fun pre c post r p' he hs => ?_⟩
    exact h (e :: pre) c post r p' (by rw [he, List.cons_append]) hs

variable (hashToken) in
/-- **Durability of the tables.** Every answered call leaves memory and file equal iff no call of
the run claims a crate; and then, as long as every registration draws a new token, every call
answers as it does in the run without the restarts. -/
theorem durable_iff_no_claim (file : OwnersJson) (events : List Event) :
    ((∀ pre c post r p, events = pre ++ .call c :: post →
        step hashToken (Run.final (step hashToken) (new file) pre) (.call c) = (some (.ok r), p) →
        Durable p) ↔
      Run.Along (step hashToken) (fun p e => ¬ Claims hashToken p e) (new file) events) ∧
    (Run.Along (step hashToken) (fun p e => ¬ Claims hashToken p e) (new file) events →
      Run.Along (step hashToken) (DrawsNew hashToken) (new file) events →
      (Run.outputs (step hashToken) (new file) events).reduceOption =
        Run.outputs (fun p c => call hashToken p {} c) (new file)
          (events.filterMap Event.call?)) := by
  refine ⟨⟨no_claim_of_durable (durable_new file), ?_⟩, fun h hnew => ?_⟩
  · rintro h pre c post r p rfl hs
    obtain ⟨hpre, hc, _⟩ := Run.along_append.mp h
    have hd := durable_call (durable_final hpre) hc
    have hp : (call hashToken (Run.final (step hashToken) (new file) pre) {} c).2 = p :=
      congrArg Prod.snd hs
    exact hp ▸ hd
  · refine outputs_restart (agree_new file) hnew ?_
    exact Run.Along.mono (I := Durable) (Q := fun p e => e = .restart → Durable p)
      (fun _ _ hd hc => durable_step hd hc) (fun _ _ hd _ _ => hd) h (durable_new file)

/-- A run without a claim: the owner of a crate publishes and adds an owner, and the added owner
yanks after a restart. -/
theorem durable_iff_no_claim_added :
    let file := OwnersJson.saved
      (AList.insert (testHash tokenZero) "user1" (AList.singleton (testHash tokenOne) "user2"))
      (AList.singleton "crate1" {"user1"})
    let events := [Event.call (.publish (tokenToStr tokenZero) "crate1"),
      .call (.addOwners (tokenToStr tokenZero) ["user2"] "crate1"), .restart,
      .call (.authYank (tokenToStr tokenOne) "crate1")]
    (Run.outputs (step testHash) (new file) events).reduceOption =
      Run.outputs (fun p c => call testHash p {} c) (new file) (events.filterMap Event.call?) := by
  refine (durable_iff_no_claim testHash _ _).2 ⟨?_, id, id, id, trivial⟩
    ⟨trivial, trivial, trivial, trivial, trivial⟩
  rintro ⟨login, -, hc⟩
  exact hc ⟨_, rfl, by decide⟩

/-- A claim is lost by a restart: the crate that `user1` published is gone from the file, and
`user2`, who is refused without the restart, becomes its owner. -/
theorem claim_lost_by_restart :
    let start := [Event.call (.register "user1" tokenZero), .call (.register "user2" tokenOne),
      .call (.publish (tokenToStr tokenZero) "crate1")]
    let p := Run.final (step testHash) (new .missing) start
    let other := Event.call (.publish (tokenToStr tokenOne) "crate1")
    (Run.outputs (step testHash) (new .missing) start).getLast? = some (some (.ok .done)) ∧
      ¬ Durable p ∧
      Run.outputs (step testHash) p [other] = [some (.error .forbidden)] ∧
      Run.outputs (step testHash) p [.restart, other] = [none, some (.ok .done)] := by
  refine ⟨rfl, fun h => ?_, rfl, rfl⟩
  have hcrates := congrArg (fun r => r.toOption.map fun t => t.2.entries.length) h
  exact absurd hcrates (by decide)

end FsAuth

end Freighter
