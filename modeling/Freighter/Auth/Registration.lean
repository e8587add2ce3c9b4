import Freighter.Auth.Effect

/-!
# Registration

`register` refuses a login that has a token. It asks the reverse index `owner_tokens`, which is not
saved; after a restart it is empty and the next `register` rebuilds it.

* `Action`, `act`: calls, health checks and restarts; reads may fail. `handedOut`: the tokens that
  a run hands out, with the logins they were issued for.
* `Registry`: the file and the tables in memory have the same tokens, and the reverse index in
  memory is empty or exact; **`registry_act`**: what one action does to it.
* **`registered_once`**: who is registered and who is refused, for ever.
-/

namespace Freighter

namespace FsAuth

variable (hashToken : BareToken → HashedToken)

/-! ## The runs -/

/-- `healthcheck`, which loads the tables. -/
def healthcheck (io : Io) (p : FsAuthProvider) : AuthResult Unit × FsAuthProvider :=
  withOwners io p fun owners => (.ok (), owners, p.ownersJson)

/-- An operation of the provider, or a restart. -/
inductive Action where
  | call (io : Io) (c : Call)
  | healthcheck (io : Io)
  | restart

def act (p : FsAuthProvider) : Action → Option (AuthResult Reply) × FsAuthProvider
  | .call io c => (call hashToken p io c).map some id
  | .healthcheck io => (healthcheck io p).map (fun r => some (r.map fun _ => .done)) id
  | .restart => (none, new p.ownersJson)

/-- The save of the tables, if there is one, succeeds. -/
def Action.Writes : Action → Prop
  | .call io _ => io.write = .done
  | _ => True

/-- The hash of the token that a registration draws. -/
def Action.drawn : Action → Option HashedToken
  | .call _ (.register _ bareToken) => some (hashToken bareToken)
  | _ => none

/-- The login and the token of a registration that went through. -/
def issued : Action × Option (AuthResult Reply) → Option (String × String)
  | (.call _ (.register username _), some (.ok (.token tokenStr))) => some (username, tokenStr)
  | _ => none

/-- The tokens that the run hands out, each with the login it is issued for. -/
def handedOut (actions : List Action) : List (String × String) :=
  (actions.zip (Run.outputs (act hashToken) (new .missing) actions)).filterMap issued

theorem handedOut_concat (actions : List Action) (a : Action) :
    handedOut hashToken (actions ++ [a]) = handedOut hashToken actions ++
      (issued (a, (act hashToken (Run.final (act hashToken) (new .missing) actions)
        a).1)).toList := by
  unfold handedOut
  rw [Run.outputs_concat, List.zip_append (Run.length_outputs _ _ _).symm, List.filterMap_append]
  exact congrArg _ (by simp only [List.zip_cons_cons, List.zip_nil_right]; rfl)

/-! ## The reverse index -/

/-- No login has two tokens. -/
def Single (tokenOwners : HashMap HashedToken String) : Prop :=
  ∀ token token' login, tokenOwners.lookup token = some login →
    tokenOwners.lookup token' = some login → token = token'

/-- The reverse index is the exact inverse of the stored tokens. -/
def Owners.Inverse (o : Owners) : Prop :=
  ∀ login token, o.ownerTokens.lookup login = some token ↔ o.tokenOwners.lookup token = some login

/-- The tables after a registration. -/
def Owners.enrolled (o : Owners) (login : String) (token : HashedToken) : Owners :=
  { o with
    ownerTokens := o.fillOwnerTokens.ownerTokens.insert login token
    tokenOwners := o.tokenOwners.insert token login }

section Inverse

variable {o : Owners}

theorem single_insert {tokenOwners : HashMap HashedToken String} (h : Single tokenOwners)
    {login : String} (hl : ∀ token, tokenOwners.lookup token ≠ some login) (token : HashedToken) :
    Single (tokenOwners.insert token login) := by
  intro t t' l ht ht'
  by_cases he : t = token <;> by_cases he' : t' = token
  · rw [he, he']
  · rw [he, AList.lookup_insert] at ht
    rw [AList.lookup_insert_ne he', ← ht] at ht'
    exact absurd ht' (hl t')
  · rw [he', AList.lookup_insert] at ht'
    rw [AList.lookup_insert_ne he, ← ht'] at ht
    exact absurd ht (hl t)
  · rw [AList.lookup_insert_ne he] at ht
    rw [AList.lookup_insert_ne he'] at ht'
    exact h t t' l ht ht'

theorem inverse_invert (h : Single o.tokenOwners) :
    Owners.Inverse { o with ownerTokens := o.invert } := by
  intro login token
  have hmem : ∀ l t, (l, t) ∈ o.tokenOwners.iter.map (fun e => (e.2, e.1)) ↔
      o.tokenOwners.lookup t = some l := by
    intro l t
    rw [← HashMap.mem_iter]
    simp
  change o.invert.lookup login = some token ↔ _
  rw [Owners.invert, HashMap.lookup_collect fun l t t' ht ht' =>
    h t t' l ((hmem l t).mp ht) ((hmem l t').mp ht')]
  exact hmem login token

/-- `register` asks an exact reverse index. -/
theorem inverse_fillOwnerTokens (hs : Single o.tokenOwners) (h : o.ownerTokens = ∅ ∨ o.Inverse) :
    o.fillOwnerTokens.Inverse := by
  unfold Owners.fillOwnerTokens
  split_ifs with he
  · exact inverse_invert hs
  · exact h.resolve_left fun hn => he (by rw [hn]; rfl)

theorem inverse_enrolled (h : o.fillOwnerTokens.Inverse) {login : String} {token : HashedToken}
    (hl : login ∉ o.fillOwnerTokens.ownerTokens) (ht : token ∉ o.tokenOwners) :
    (o.enrolled login token).Inverse := by
  intro l t
  have hlt := h l t
  rw [tokenOwners_fillOwnerTokens] at hlt
  change (o.fillOwnerTokens.ownerTokens.insert login token).lookup l = some t ↔
    (o.tokenOwners.insert token login).lookup t = some l
  by_cases he : l = login <;> by_cases he' : t = token
  · rw [he, he', AList.lookup_insert, AList.lookup_insert]
    exact ⟨fun _ => rfl, fun _ => rfl⟩
  · rw [he, AList.lookup_insert, AList.lookup_insert_ne he', ← he, ← hlt]
    constructor
    · exact fun e => absurd (Option.some.inj e).symm he'
    · exact fun e => absurd (he ▸ HashMap.mem_of_lookup e) hl
  · rw [he', AList.lookup_insert, AList.lookup_insert_ne he, ← he', hlt]
    constructor
    · exact fun e => absurd (he' ▸ HashMap.mem_of_lookup e) ht
    · exact fun e => absurd (Option.some.inj e).symm he
  · rw [AList.lookup_insert_ne he, AList.lookup_insert_ne he', hlt]

/-- **Who is refused by `register`**: a login that has a token. -/
theorem mem_fillOwnerTokens_iff (hs : Single o.tokenOwners) (h : o.ownerTokens = ∅ ∨ o.Inverse)
    {login : String} :
    login ∈ o.fillOwnerTokens.ownerTokens ↔
      ∃ token, o.tokenOwners.lookup token = some login := by
  rw [← AList.lookup_isSome, Option.isSome_iff_exists, ← tokenOwners_fillOwnerTokens]
  exact exists_congr fun token => inverse_fillOwnerTokens hs h login token

end Inverse

/-! ## One action -/

/-- The login has a token. -/
def HasToken (p : FsAuthProvider) (login : String) : Prop :=
  ∃ token o, ownersMut {} p = .ok o ∧ o.tokenOwners.lookup token = some login

/-- The file and the tables in memory have the tokens `tokenOwners`, and the reverse index in
memory is empty or exact. -/
structure Registry (p : FsAuthProvider) (tokenOwners : HashMap HashedToken String) : Prop where
  file : ∃ crateOwners, loadOwnersFile {} p = .ok ⟨tokenOwners, crateOwners, ∅⟩
  memory : ∀ o, p.owners = some o →
    o.tokenOwners = tokenOwners ∧ (o.ownerTokens = ∅ ∨ o.Inverse)

section Act

variable {hashToken} {p : FsAuthProvider} {tokenOwners : HashMap HashedToken String}

theorem Registry.owners (h : Registry p tokenOwners) {io : Io} {o : Owners}
    (ho : ownersMut io p = .ok o) :
    o.tokenOwners = tokenOwners ∧ (o.ownerTokens = ∅ ∨ o.Inverse) := by
  have ho' := ownersMut_ok ho
  unfold ownersMut at ho'
  cases hp : p.owners with
  | some o' =>
    rw [hp] at ho'
    cases ho'
    exact h.memory o hp
  | none =>
    obtain ⟨crateOwners, hfile⟩ := h.file
    rw [hp] at ho'
    cases hfile.symm.trans ho'
    exact ⟨rfl, Or.inl rfl⟩

/-- The tables are there unless they have to be read and the read fails. -/
theorem Registry.ownersMut_eq_ok (h : Registry p tokenOwners) {io : Io}
    (hio : p.owners ≠ none ∨ io.readFails = false) : ∃ o, ownersMut io p = .ok o := by
  unfold ownersMut
  cases hp : p.owners with
  | some o => exact ⟨o, rfl⟩
  | none =>
    obtain ⟨crateOwners, hfile⟩ := h.file
    have hr : io.readFails = false := hio.resolve_left fun hn => hn hp
    have hload : loadOwnersFile io p = loadOwnersFile {} p := by
      simp only [loadOwnersFile, hr]
    exact ⟨_, hload.trans hfile⟩

theorem Registry.loaded (h : Registry p tokenOwners) : ∃ o, ownersMut {} p = .ok o :=
  h.ownersMut_eq_ok (Or.inr rfl)

theorem Registry.hasToken_iff (h : Registry p tokenOwners) {login : String} :
    HasToken p login ↔ ∃ token, tokenOwners.lookup token = some login := by
  constructor
  · rintro ⟨token, o, ho, hl⟩
    exact ⟨token, (h.owners ho).1 ▸ hl⟩
  · rintro ⟨token, hl⟩
    obtain ⟨o, ho⟩ := h.loaded
    exact ⟨token, o, ho, (h.owners ho).1 ▸ hl⟩

/-- Tables in memory that have the tokens of the file. -/
theorem Registry.of_owners (h : Registry p tokenOwners) {o : Owners}
    (ho : o.tokenOwners = tokenOwners) (hi : o.ownerTokens = ∅ ∨ o.Inverse) :
    Registry ⟨some o, p.ownersJson⟩ tokenOwners :=
  ⟨h.file, fun _ ho' => Option.some.inj ho' ▸ ⟨ho, hi⟩⟩

/-- Tables that were saved. -/
theorem registry_saved {io : Io} (hw : io.write = .done) {o : Owners} {file : OwnersJson}
    (hi : o.ownerTokens = ∅ ∨ o.Inverse) :
    Registry ⟨some o, (syncOwners io o file).2⟩ o.tokenOwners := by
  refine ⟨⟨o.crateOwners, ?_⟩, fun _ ho' => Option.some.inj ho' ▸ ⟨rfl, hi⟩⟩
  simp only [syncOwners, hw]
  rfl

/-- A call that registers nobody. -/
theorem Registry.of_change (h : Registry p tokenOwners) {io : Io} (hw : io.write = .done)
    {o o' : Owners} {c : Call} {file : OwnersJson} (ho : ownersMut io p = .ok o)
    (hc : ∀ username bareToken, c ≠ .register username bareToken)
    (hch : Change hashToken io p.ownersJson o c o' file) :
    Registry ⟨some o', file⟩ tokenOwners := by
  obtain ⟨ht, hi⟩ := h.owners ho
  cases hch with
  | same => exact h.of_owners ht hi
  | refused => exact absurd rfl (hc _ _)
  | registered => exact absurd rfl (hc _ _)
  | claimed => exact h.of_owners ht hi
  | added _ _ _ _ ho' =>
    subst ho'
    exact ht ▸ registry_saved hw hi
  | removed _ _ _ _ ho' =>
    subst ho'
    exact ht ▸ registry_saved hw hi

theorem Registry.call (h : Registry p tokenOwners) {io : Io} (hw : io.write = .done) {c : Call}
    (hc : ∀ username bareToken, c ≠ .register username bareToken) :
    Registry (call hashToken p io c).2 tokenOwners := by
  rcases call_cases hashToken p io c with ⟨-, hp⟩ | ⟨o, o', file, ho, hch, hp⟩
  · rw [hp]
    exact h
  · rw [hp]
    exact h.of_change hw ho hc hch

/-- A registration that is refused rebuilds the reverse index and leaves the rest alone. -/
theorem register_refused {io : Io} {o : Owners} (ho : ownersMut io p = .ok o) {username : String}
    (h : username ∈ o.fillOwnerTokens.ownerTokens) (bareToken : BareToken) :
    register hashToken io p username bareToken =
      (.error .forbidden, ⟨some o.fillOwnerTokens, p.ownersJson⟩) := by
  simp only [register, withOwners, ho, Owners.register, if_pos h]

/-- A registration that goes through saves the new token. -/
theorem register_enrolled {io : Io} (hw : io.write = .done) {o : Owners}
    (ho : ownersMut io p = .ok o) {username : String}
    (h : username ∉ o.fillOwnerTokens.ownerTokens) (bareToken : BareToken) :
    register hashToken io p username bareToken =
      (.ok (tokenToStr bareToken), ⟨some (o.enrolled username (hashToken bareToken)),
        (syncOwners io (o.enrolled username (hashToken bareToken)) p.ownersJson).2⟩) := by
  simp only [register, withOwners, ho, Owners.register, if_neg h, syncOwners, hw, Owners.enrolled,
    tokenOwners_fillOwnerTokens, crateOwners_fillOwnerTokens]
  rfl

/-- A registration that cannot read the tables it needs. -/
theorem register_unread {io : Io} (hp : p.owners = none) (hr : io.readFails = true)
    (username : String) (bareToken : BareToken) :
    register hashToken io p username bareToken = (.error .serviceError, p) := by
  simp only [register, withOwners, ownersMut, hp, loadOwnersFile, if_pos hr]

/-- The answer of `register` when the tables can be read. -/
theorem Registry.register_ok_iff (h : Registry p tokenOwners) (hs : Single tokenOwners) {io : Io}
    (hw : io.write = .done) (hio : p.owners ≠ none ∨ io.readFails = false) (username : String)
    (bareToken : BareToken) :
    ((∃ tokenStr, (register hashToken io p username bareToken).1 = .ok tokenStr) ↔
        ¬ HasToken p username) ∧
      (HasToken p username →
        (register hashToken io p username bareToken).1 = .error .forbidden) := by
  obtain ⟨o, ho⟩ := h.ownersMut_eq_ok hio
  obtain ⟨ht, hi⟩ := h.owners ho
  have hasked : username ∈ o.fillOwnerTokens.ownerTokens ↔ HasToken p username := by
    rw [mem_fillOwnerTokens_iff (ht ▸ hs) hi, h.hasToken_iff, ht]
  by_cases hu : username ∈ o.fillOwnerTokens.ownerTokens
  · rw [register_refused ho hu]
    refine ⟨⟨?_, fun hn => absurd (hasked.mp hu) hn⟩, fun _ => rfl⟩
    rintro ⟨_, he⟩
    cases he
  · rw [register_enrolled hw ho hu]
    exact ⟨⟨fun _ => mt hasked.mpr hu, fun _ => ⟨_, rfl⟩⟩, fun hn => absurd (hasked.mpr hn) hu⟩

variable (hashToken) in
/-- What an action does to the stored tokens: nothing, or the registration of a login that has no
token. -/
inductive Enrols (p : FsAuthProvider) (tokenOwners : HashMap HashedToken String) (a : Action) :
    HashMap HashedToken String → Prop
  | none (h : issued (a, (act hashToken p a).1) = none) : Enrols p tokenOwners a tokenOwners
  | some {username : String} {bareToken : BareToken}
      (hd : a.drawn hashToken = some (hashToken bareToken))
      (hu : ∀ token, tokenOwners.lookup token ≠ some username)
      (h : issued (a, (act hashToken p a).1) = some (username, tokenToStr bareToken)) :
      Enrols p tokenOwners a (tokenOwners.insert (hashToken bareToken) username)

theorem registry_register (h : Registry p tokenOwners) (hs : Single tokenOwners) {io : Io}
    (hw : io.write = .done) (username : String) {bareToken : BareToken}
    (hnew : hashToken bareToken ∉ tokenOwners) :
    let a := Action.call io (.register username bareToken)
    ∃ tokenOwners', Registry (act hashToken p a).2 tokenOwners' ∧
      Enrols hashToken p tokenOwners a tokenOwners' := by
  intro a
  have hact : act hashToken p a =
      (some ((register hashToken io p username bareToken).1.map .token),
        (register hashToken io p username bareToken).2) := rfl
  cases ho : ownersMut io p with
  | error e =>
    have hr : register hashToken io p username bareToken = (.error e, p) := by
      simp only [register, withOwners, ho]
    rw [hr] at hact
    exact ⟨tokenOwners, by rw [hact]; exact h, .none (by rw [hact]; rfl)⟩
  | ok o =>
    obtain ⟨ht, hi⟩ := h.owners ho
    have hfill := inverse_fillOwnerTokens (ht ▸ hs) hi
    by_cases hu : username ∈ o.fillOwnerTokens.ownerTokens
    · rw [register_refused ho hu] at hact
      refine ⟨tokenOwners, ?_, .none (by rw [hact]; rfl)⟩
      rw [hact]
      exact h.of_owners ((tokenOwners_fillOwnerTokens o).trans ht) (Or.inr hfill)
    · rw [register_enrolled hw ho hu] at hact
      refine ⟨_, ?_, .some rfl (fun token hl => hu ?_) (by rw [hact]; rfl)⟩
      · rw [hact, ← ht]
        exact registry_saved hw (Or.inr (inverse_enrolled hfill hu (ht ▸ hnew)))
      · exact (mem_fillOwnerTokens_iff (ht ▸ hs) hi).mpr ⟨token, ht ▸ hl⟩

/-- **One action.** -/
theorem registry_act (h : Registry p tokenOwners) (hs : Single tokenOwners) {a : Action}
    (hw : a.Writes) (hnew : ∀ token, a.drawn hashToken = some token → token ∉ tokenOwners) :
    ∃ tokenOwners', Registry (act hashToken p a).2 tokenOwners' ∧
      Enrols hashToken p tokenOwners a tokenOwners' := by
  cases a with
  | restart => exact ⟨tokenOwners, ⟨h.file, fun o ho => nomatch ho⟩, .none rfl⟩
  | healthcheck io =>
    refine ⟨tokenOwners, ?_, .none rfl⟩
    change Registry (healthcheck io p).2 tokenOwners
    unfold healthcheck withOwners
    cases ho : ownersMut io p with
    | error e => exact h
    | ok o => exact h.of_owners (h.owners ho).1 (h.owners ho).2
  | call io c =>
    have hother (hc : ∀ username bareToken, c ≠ .register username bareToken) :
        Registry (act hashToken p (.call io c)).2 tokenOwners := h.call hw hc
    cases c with
    | register username bareToken => exact registry_register h hs hw username (hnew _ rfl)
    | listOwners | addOwners | removeOwners | publish | authYank | ensureValidToken =>
      exact ⟨tokenOwners, hother (fun _ _ e => nomatch e), .none rfl⟩

end Act

/-! ## The runs of the provider -/

section Runs

variable {hashToken} {actions : List Action}

variable (hashToken) in
/-- The stored tokens after a run: the tokens handed out are among them, under different logins,
and their hashes were drawn. -/
structure Enrolled (tokenOwners : HashMap HashedToken String) (actions : List Action) : Prop where
  single : Single tokenOwners
  drawn : ∀ token ∈ tokenOwners, token ∈ actions.filterMap (Action.drawn hashToken)
  handed : ∀ x ∈ handedOut hashToken actions,
    ∃ token, tokenFromStr hashToken x.2 = .ok token ∧ tokenOwners.lookup token = some x.1
  once : ((handedOut hashToken actions).map Prod.fst).Nodup

theorem Enrolled.concat {tokenOwners tokenOwners' : HashMap HashedToken String}
    (h : Enrolled hashToken tokenOwners actions) {a : Action}
    (hnew : ∀ token, a.drawn hashToken = some token → token ∉ tokenOwners)
    (ha : Enrols hashToken (Run.final (act hashToken) (new .missing) actions) tokenOwners a
      tokenOwners') :
    Enrolled hashToken tokenOwners' (actions ++ [a]) := by
  cases ha with
  | none hissued =>
    have hhanded : handedOut hashToken (actions ++ [a]) = handedOut hashToken actions := by
      rw [handedOut_concat, hissued, Option.toList_none, List.append_nil]
    refine ⟨h.single, fun token ht => ?_, hhanded ▸ h.handed, hhanded ▸ h.once⟩
    rw [List.filterMap_append]
    exact List.mem_append_left _ (h.drawn token ht)
  | @some username bareToken hd hu hissued =>
    have hhanded : handedOut hashToken (actions ++ [a]) =
        handedOut hashToken actions ++ [(username, tokenToStr bareToken)] := by
      rw [handedOut_concat, hissued, Option.toList_some]
    refine ⟨single_insert h.single hu _, fun token ht => ?_, fun x hx => ?_, ?_⟩
    · rw [List.filterMap_append, List.mem_append]
      rcases (AList.mem_insert _).mp ht with rfl | ht
      · exact Or.inr (List.mem_filterMap.mpr ⟨a, List.mem_singleton_self a, hd⟩)
      · exact Or.inl (h.drawn token ht)
    · rw [hhanded, List.mem_append, List.mem_singleton] at hx
      rcases hx with hx | rfl
      · obtain ⟨token, ht, hl⟩ := h.handed x hx
        have hne : token ≠ hashToken bareToken := by
          rintro rfl
          exact hnew _ hd (HashMap.mem_of_lookup hl)
        exact ⟨token, ht, by rw [AList.lookup_insert_ne hne, hl]⟩
      · exact ⟨_, tokenFromStr_tokenToStr bareToken, AList.lookup_insert _⟩
    · rw [hhanded, List.map_append, List.map_singleton, List.nodup_append]
      refine ⟨h.once, List.nodup_singleton _, fun l hl l' hl' he => ?_⟩
      obtain ⟨x, hx, hxl⟩ := List.mem_map.mp hl
      obtain ⟨token, -, hlookup⟩ := h.handed x hx
      rw [List.mem_singleton] at hl'
      exact hu token (by rw [hlookup, hxl, he, hl'])

/-- **The run.** -/
theorem registry_final (hw : ∀ a ∈ actions, a.Writes)
    (hd : (actions.filterMap (Action.drawn hashToken)).Nodup) :
    ∃ tokenOwners, Registry (Run.final (act hashToken) (new .missing) actions) tokenOwners ∧
      Enrolled hashToken tokenOwners actions := by
  induction actions using List.reverseRecOn with
  | nil =>
    refine ⟨∅, ⟨⟨∅, rfl⟩, fun o ho => nomatch ho⟩, ?_, ?_, ?_, List.nodup_nil⟩
    · exact fun token token' login h => nomatch h
    · exact fun token h => absurd h (AList.notMem_empty token)
    · exact fun x hx => nomatch hx
  | append_singleton actions a ih =>
    rw [List.filterMap_append, List.nodup_append] at hd
    obtain ⟨tokenOwners, hreg, henr⟩ :=
      ih (fun a' ha' => hw a' (List.mem_append_left _ ha')) hd.1
    have hnew : ∀ token, a.drawn hashToken = some token → token ∉ tokenOwners := by
      intro token ht hmem
      refine hd.2.2 token (henr.drawn token hmem) token ?_ rfl
      exact List.mem_filterMap.mpr ⟨a, List.mem_singleton_self a, ht⟩
    have ha := hw a (List.mem_append_right _ (List.mem_singleton_self a))
    obtain ⟨tokenOwners', hreg', henrols⟩ := registry_act hreg henr.single ha hnew
    rw [Run.final_concat]
    exact ⟨tokenOwners', hreg', henr.concat hnew henrols⟩

/-- What registration keeps up in the state `p` after the tokens `handed` were handed out. -/
structure RegisteredOnce (hashToken : BareToken → HashedToken) (p : FsAuthProvider)
    (handed : List (String × String)) : Prop where
  register : ∀ io username bareToken, io.write = .done →
    (p.owners ≠ none ∨ io.readFails = false) →
    ((∃ tokenStr, (register hashToken io p username bareToken).1 = .ok tokenStr) ↔
        ¬ HasToken p username) ∧
      (HasToken p username →
        (register hashToken io p username bareToken).1 = .error .forbidden)
  single : ∀ o token token' login, ownersMut {} p = .ok o →
    o.tokenOwners.lookup token = some login → o.tokenOwners.lookup token' = some login →
      token = token'
  resolves : ∀ login tokenStr, (login, tokenStr) ∈ handed → Resolves hashToken p tokenStr login
  once : (handed.map Prod.fst).Nodup
  inverse : ∀ o, p.owners = some o → o.ownerTokens = ∅ ∨ o.Inverse

variable (hashToken) in
/-- **A username is registered at most once, for ever.** -/
theorem registered_once (actions : List Action) (hw : ∀ a ∈ actions, a.Writes)
    (hd : (actions.filterMap (Action.drawn hashToken)).Nodup) :
    RegisteredOnce hashToken (Run.final (act hashToken) (new .missing) actions)
      (handedOut hashToken actions) := by
  obtain ⟨tokenOwners, hreg, henr⟩ := registry_final hw hd
  refine ⟨fun io username bareToken hio hread => ?_, fun o token token' login ho h h' => ?_,
    fun login tokenStr hmem => ?_, henr.once, fun o ho => (hreg.memory o ho).2⟩
  · exact hreg.register_ok_iff henr.single hio hread username bareToken
  · rw [(hreg.owners ho).1] at h h'
    exact henr.single token token' login h h'
  · obtain ⟨token, ht, hl⟩ := henr.handed _ hmem
    obtain ⟨o, ho⟩ := hreg.loaded
    exact ⟨token, o, ht, ho, (hreg.owners ho).1 ▸ hl⟩

/-- Two users register, the second after a restart; the name of the first is refused. -/
theorem registered_once_twice :
    let actions := [Action.call {} (.register "user1" tokenZero), .restart,
      .call { readFails := true } (.ensureValidToken "fr1_"), .call {} (.register "user2" tokenOne)]
    let p := Run.final (act testHash) (new .missing) actions
    handedOut testHash actions =
        [("user1", tokenToStr tokenZero), ("user2", tokenToStr tokenOne)] ∧
      HasToken p "user1" ∧
      (register testHash {} p "user1" tokenOne).1 = .error .forbidden ∧
      Resolves testHash p (tokenToStr tokenZero) "user1" := by
  intro actions p
  have hw : ∀ a ∈ actions, a.Writes := by
    intro a ha
    simp only [actions, List.mem_cons, List.not_mem_nil, or_false] at ha
    rcases ha with rfl | rfl | rfl | rfl
    all_goals first | rfl | trivial
  have hd : (actions.filterMap (Action.drawn testHash)).Nodup := by decide
  have hhanded : handedOut testHash actions =
      [("user1", tokenToStr tokenZero), ("user2", tokenToStr tokenOne)] := by decide
  have hall := registered_once testHash actions hw hd
  have hresolves := hall.resolves "user1" (tokenToStr tokenZero)
    (hhanded ▸ List.mem_cons_self)
  have htoken : HasToken p "user1" := by
    obtain ⟨token, o, -, ho, hl⟩ := hresolves
    exact ⟨token, o, ho, hl⟩
  exact ⟨hhanded, htoken,
    (hall.register {} "user1" tokenOne rfl (Or.inr rfl)).2 htoken, hresolves⟩

end Runs

end FsAuth

end Freighter
