import Freighter.Auth.Model

/-!
# Cloudflare Access

`CfAccess` checks tokens with keys that it fetches. The keys are behind a read-write lock; the
checks of a client run under a read lock, at one time of the clock, and a fetch under the write
lock, which clients may come and go before and after.

* `usableKeys`, `userId`, `validate`: what is done with a fetched set, with claims, with a token;
* `State`, `Label`, `step`: clients that call `validated_user_id` and `refresh`. Fetches take their
  time, fail, or are given up with the request that waits for them;
* `Current`: tokens are accepted with the keys of the last fetch that succeeded, and within
  `MAX_AGE` of it; `Recent`: the keys are out of use by then; `Timely`: when a fetch fails, they
  are.
* **`current_of_timely`**: in a run of timely steps the keys are current; a step that is not timely
  lets a token through later.

The signatures and the headers of tokens are parameters.
-/

namespace Freighter

namespace CfAccess

/-! ## Keys and tokens -/

/-- `Instant` and `Duration`, in nanoseconds. -/
abbrev Instant : Type := ℕ

def fromSecs (secs : ℕ) : ℕ := secs * 10 ^ 9

/-- Check for new keys. -/
def REFRESH_DURATION : ℕ := fromSecs (1 * 3600)

/-- The max-age that Cloudflare gives the keys. -/
def MAX_AGE : ℕ := fromSecs (4 * 3600)

inductive PublicKeyUse where
  | signature
  | encryption
  | other (text : String)
deriving DecidableEq

/-- A key of a set; `decodingKey` is what `DecodingKey::from_jwk` makes of it. -/
structure Jwk (K : Type) where
  publicKeyUse : Option PublicKeyUse
  decodingKey : Option K
  keyId : Option String

structure Claims where
  commonName : Option String
  sub : Option String

/-- `decode_header`, with the `kid` of the header, and `decode` at a time with a key. -/
structure JsonWebToken (K : Type) where
  decodeHeader : String → Option (Option String)
  decode : Instant → String → K → Option Claims

/-- The signature keys of a set. -/
def usableKeys {K : Type} (set : List (Jwk K)) : HashMap String K :=
  HashMap.collect ((set.filter (·.publicKeyUse = some .signature)).filterMap fun k =>
    k.decodingKey.bind fun key => k.keyId.map fun kid => (kid, key))

/-- `UserId::is_service_token`. -/
def isServiceToken (user : String) : Bool := ".access".toList.isSuffixOf user.toList

/-- The user that claims are about. -/
def userId (claims : Claims) : AuthResult String :=
  let sub := claims.sub.filter (· ≠ "")
  match sub.or claims.commonName with
  | none => .error .serviceError
  | some user => if isServiceToken user ≠ sub.isNone then .error .serviceError else .ok user

variable {K : Type} (J : JsonWebToken K)

/-- What `validated_user_id` answers with the keys at hand. -/
def validate (keys : HashMap String K) (now : Instant) (token kid : String) : AuthResult String :=
  match keys.lookup kid with
  | none => .error .invalidCredentials
  | some key =>
    match J.decode now token key with
    | none => .error .unauthorized
    | some claims => userId claims

/-! ## The machine -/

/-- Where a client is. A refresh goes back to the validation that asks for it, a token with its
`kid`, if it does not come from `refresh` itself. -/
inductive Pc where
  | idle
  | validating (token kid : String)
  | refreshing (back : Option (String × String))
  | fetching (back : Option (String × String))
  | done (r : AuthResult (Option String))
deriving DecidableEq

/-- `KeySet` behind its lock, with the client that holds it for writing, and the clients.
`lastFetch` is a record: the last fetch that succeeded, and when. -/
structure State (ι K : Type) where
  clock : Instant
  nextFetch : Instant
  keys : HashMap String K
  writer : Option ι
  pc : ι → Pc
  lastFetch : Option (Instant × List (Jwk K))

inductive Label (ι K : Type) where
  | tick (d : ℕ)
  | validate (i : ι) (token : String)
  | refresh (i : ι)
  | look (i : ι)
  | enter (i : ι)
  | fetched (i : ι) (outcome : Option (List (Jwk K)))
  | cancel (i : ι)

variable {ι : Type} [DecidableEq ι]

/-- `CfAccess::new`. -/
def initial : State ι K where
  clock := 0
  nextFetch := 0
  keys := ∅
  writer := none
  pc _ := .idle
  lastFetch := none

def State.move (s : State ι K) (i : ι) (pc : Pc) : State ι K :=
  { s with pc := Function.update s.pc i pc }

/-- The client is not in a call. -/
def Pc.free : Pc → Bool
  | .idle | .done _ => true
  | _ => false

/-- After a refresh that succeeds. -/
def refreshed : Option (String × String) → Pc
  | none => .done (.ok none)
  | some (token, kid) => .validating token kid

/-- The end of a fetch. One without usable keys leaves `nextFetch` a second after its start. -/
def store (s : State ι K) (i : ι) (back : Option (String × String)) :
    Option (List (Jwk K)) → State ι K
  | none => { s with writer := none }.move i (.done (.error .serviceError))
  | some set =>
    let s := { s with writer := none, keys := usableKeys set, lastFetch := some (s.clock, set) }
    if s.keys.entries.isEmpty then s.move i (.done (.error .serviceError))
    else { s with nextFetch := s.clock + REFRESH_DURATION }.move i (refreshed back)

/-- One round of the loop of `validated_user_id`, and what follows the loop. -/
def look (s : State ι K) (i : ι) : Option (State ι K) :=
  match s.pc i, s.writer with
  | .validating token kid, none =>
    if s.nextFetch < s.clock then some (s.move i (.refreshing (some (token, kid))))
    else some (s.move i (.done ((validate J s.keys s.clock token kid).map some)))
  | _, _ => none

/-- `refresh` up to the fetch. -/
def enter (s : State ι K) (i : ι) : Option (State ι K) :=
  match s.pc i, s.writer with
  | .refreshing back, none =>
    if s.clock < s.nextFetch then
      if s.keys.entries.isEmpty then some (s.move i (.done (.error .serviceError)))
      else some (s.move i (refreshed back))
    else
      -- in case of failure, retry 1/s
      some ({ s with nextFetch := s.clock + fromSecs 1, writer := some i }.move i (.fetching back))
  | _, _ => none

def step (s : State ι K) : Label ι K → Option (State ι K)
  | .tick d => some { s with clock := s.clock + d }
  | .validate i token =>
    if (s.pc i).free then
      match J.decodeHeader token with
      | some (some kid) => some (s.move i (.validating token kid))
      | _ => some (s.move i (.done (.error .invalidCredentials)))
    else none
  | .refresh i => if (s.pc i).free then some (s.move i (.refreshing none)) else none
  | .look i => look J s i
  | .enter i => enter s i
  | .fetched i outcome =>
    match s.pc i with
    | .fetching back => some (store s i back outcome)
    | _ => none
  | .cancel i =>
    -- the request is dropped, and its guard with it
    match s.pc i with
    | .fetching _ => some ({ s with writer := none }.move i .idle)
    | _ => some (s.move i .idle)

/-! ## What the keys are used for -/

/-- A token is accepted only with a key of the last set fetched, and only within its max-age. -/
def Current (s : State ι K) : Prop :=
  ∀ i s' user, step J s (.look i) = some s' → s'.pc i = .done (.ok (some user)) →
    ∃ time set token kid key, s.lastFetch = some (time, set) ∧ s.pc i = .validating token kid ∧
      (usableKeys set).lookup kid = some key ∧ (J.decode s.clock token key).isSome ∧
      s.clock ≤ time + MAX_AGE

omit [DecidableEq ι] in
/-- The keys are out of use before they are too old. -/
def Recent (s : State ι K) : Prop :=
  s.keys.entries.isEmpty ∨ s.nextFetch < s.clock ∨
    ∃ time set, s.lastFetch = some (time, set) ∧ s.nextFetch ≤ time + MAX_AGE

omit [DecidableEq ι] in
/-- A step in which a fetch fails or is given up finds the keys recent. -/
def Timely (s : State ι K) (a : Label ι K) : Prop :=
  ∀ i back, s.pc i = .fetching back → a = .fetched i none ∨ a = .cancel i → Recent s

omit [DecidableEq ι] in
/-- What carries `Current` along a run. -/
structure Inv (s : State ι K) : Prop where
  keys : ∀ kid key, s.keys.lookup kid = some key →
    ∃ time set, s.lastFetch = some (time, set) ∧ (usableKeys set).lookup kid = some key
  recent : s.writer = none → Recent s

/-! ## One step -/

/-- What a step does to the keys and their lock. -/
inductive Move (s : State ι K) : Label ι K → State ι K → Prop where
  | tick {d} : Move s (.tick d) { s with clock := s.clock + d }
  | moved {a} (i) (pc) : Move s a (s.move i pc)
  | entered {i back} : Move s (.enter i)
      ({ s with nextFetch := s.clock + fromSecs 1, writer := some i }.move i (.fetching back))
  | failed {i back a} (pc) (hp : s.pc i = .fetching back)
      (ha : a = .fetched i none ∨ a = .cancel i) :
      Move s a ({ s with writer := none }.move i pc)
  | stored {i set} (back) : Move s (.fetched i (some set)) (store s i back (some set))

variable {J} {s s' : State ι K} {a : Label ι K}

theorem look_cases {i : ι} (h : look J s i = some s') :
    ∃ token kid, s.pc i = .validating token kid ∧ s.writer = none ∧
      (s' = s.move i (.refreshing (some (token, kid))) ∨ ¬ s.nextFetch < s.clock ∧
        s' = s.move i (.done ((validate J s.keys s.clock token kid).map some))) := by
  unfold look at h
  split at h
  · rename_i token kid hp hw
    refine ⟨token, kid, hp, hw, ?_⟩
    split_ifs at h with hnext <;> cases h
    · exact Or.inl rfl
    · exact Or.inr ⟨hnext, rfl⟩
  · cases h

theorem step_cases (h : step J s a = some s') : Move s a s' := by
  cases a with
  | tick d =>
    cases h
    exact .tick
  | validate i token =>
    simp only [step] at h
    split_ifs at h
    split at h <;> cases h <;> exact .moved i _
  | refresh i =>
    simp only [step] at h
    split_ifs at h
    cases h
    exact .moved i _
  | look i =>
    obtain ⟨token, kid, -, -, rfl | ⟨-, rfl⟩⟩ := look_cases h <;> exact .moved i _
  | enter i =>
    simp only [step, enter] at h
    split at h
    · split_ifs at h <;> cases h
      · exact .moved i _
      · exact .moved i _
      · exact .entered
    · cases h
  | fetched i outcome =>
    simp only [step] at h
    split at h
    · rename_i back hp
      cases h
      cases outcome with
      | none => exact .failed _ hp (Or.inl rfl)
      | some set => exact .stored back
    · cases h
  | cancel i =>
    simp only [step] at h
    split at h <;> cases h
    · rename_i back hp
      exact .failed _ hp (Or.inr rfl)
    · exact .moved i _

omit [DecidableEq ι] in
theorem inv_initial : Inv (initial : State ι K) where
  keys _ _ h := by cases h
  recent _ := Or.inl rfl

/-- **A timely step keeps the invariant.** -/
theorem inv_step (h : Inv s) (ha : Timely s a) (hs : step J s a = some s') : Inv s' := by
  cases step_cases hs with
  | tick =>
    refine ⟨h.keys, fun hw => ?_⟩
    rcases h.recent hw with hempty | hpast | hfetch
    · exact Or.inl hempty
    · exact Or.inr (Or.inl (hpast.trans_le (Nat.le_add_right _ _)))
    · exact Or.inr (Or.inr hfetch)
  | moved i pc => exact ⟨h.keys, h.recent⟩
  | entered => exact ⟨h.keys, fun hw => by cases hw⟩
  | failed pc hp hlabel => exact ⟨h.keys, fun _ => ha _ _ hp hlabel⟩
  | @stored i set back =>
    have hkeys : ∀ kid key, (usableKeys set).lookup kid = some key → ∃ time set',
        some (s.clock, set) = some (time, set') ∧ (usableKeys set').lookup kid = some key :=
      fun kid key hkey => ⟨s.clock, set, rfl, hkey⟩
    simp only [store]
    split_ifs with hempty
    · exact ⟨hkeys, fun _ => Or.inl hempty⟩
    · refine ⟨hkeys, fun _ => Or.inr (Or.inr ⟨s.clock, set, rfl, ?_⟩)⟩
      exact Nat.add_le_add_left (by decide) s.clock

omit [DecidableEq ι] in
theorem validate_ok {keys : HashMap String K} {now : Instant} {token kid user : String}
    (h : validate J keys now token kid = .ok user) :
    ∃ key, keys.lookup kid = some key ∧ (J.decode now token key).isSome := by
  unfold validate at h
  split at h
  · cases h
  · rename_i key hkey
    split at h
    · cases h
    · rename_i claims hclaims
      exact ⟨key, hkey, by rw [hclaims]; rfl⟩

/-- **The invariant is enough**: a token that is accepted is accepted with a current key. -/
theorem Inv.current (h : Inv s) : Current J s := by
  intro i s' user hs haccept
  obtain ⟨token, kid, hp, hw, rfl | ⟨hnext, rfl⟩⟩ := look_cases hs
  · simp [State.move] at haccept
  · have hvalid : validate J s.keys s.clock token kid = .ok user := by
      simp only [State.move, Function.update_self, Pc.done.injEq] at haccept
      cases hv : validate J s.keys s.clock token kid with
      | error e =>
        rw [hv] at haccept
        cases haccept
      | ok u =>
        rw [hv] at haccept
        cases haccept
        rfl
    obtain ⟨key, hkey, hdecode⟩ := validate_ok hvalid
    obtain ⟨time, set, hfetch, hmem⟩ := h.keys kid key hkey
    refine ⟨time, set, token, kid, key, hfetch, hp, hmem, hdecode, ?_⟩
    rcases h.recent hw with hempty | hpast | ⟨time', set', hfetch', hage⟩
    · rw [HashMap.lookup_of_isEmpty hempty] at hkey
      cases hkey
    · exact absurd hpast hnext
    · rw [hfetch] at hfetch'
      cases hfetch'
      exact (Nat.not_lt.mp hnext).trans hage

/-- **A step that is not timely lets a token through late**: one that is valid with the keys at
hand when the retry time has come. -/
theorem late_of_not_timely (hs : step J s a = some s') (ha : ¬ Timely s a) {token kid user : String}
    (hheader : J.decodeHeader token = some (some kid))
    (hvalid : validate J s.keys s.nextFetch token kid = .ok user) :
    ∃ more u, Run.exec (step J) s' more = some u ∧ ¬ Current J u := by
  simp only [Timely, not_forall] at ha
  obtain ⟨i, back, hp, hlabel, hold⟩ := ha
  simp only [Recent, not_or, not_exists, not_and, not_le, not_lt] at hold
  obtain ⟨-, hnext, hage⟩ := hold
  obtain ⟨pc, hfree, rfl⟩ : ∃ pc : Pc, pc.free = true ∧
      s' = { s with writer := none }.move i pc := by
    rcases hlabel with rfl | rfl <;> simp only [step, hp] at hs <;> cases hs
    · exact ⟨_, rfl, rfl⟩
    · exact ⟨_, rfl, rfl⟩
  let u : State ι K := { s with
    writer := none
    clock := s.nextFetch
    pc := Function.update (Function.update s.pc i pc) i (.validating token kid) }
  refine ⟨[.validate i token, .tick (s.nextFetch - s.clock)], u, ?_, fun hcurrent => ?_⟩
  · simp only [Run.exec, step, State.move, Function.update_self, hfree, if_true, hheader,
      Option.bind_some, Nat.add_sub_cancel' hnext, u]
  · have hlook : step J u (.look i) = some (u.move i (.done (.ok (some user)))) := by
      simp only [step, look, u, Function.update_self, lt_irrefl, if_false, hvalid]
      rfl
    obtain ⟨time, set, -, -, -, hfetch, -, -, -, hle⟩ :=
      hcurrent i _ user hlook (by simp [State.move])
    exact absurd hle (Nat.not_le.mpr (hage time set hfetch))

variable (J) in
/-- **Along a run of timely steps tokens are accepted with current keys only**, and a step that is
not timely can be followed by one that accepts a token late. -/
theorem current_of_timely :
    (∀ labels s, Run.exec (step J) (initial : State ι K) labels = some s →
      (∀ pre a post t, labels = pre ++ a :: post →
        Run.exec (step J) initial pre = some t → Timely t a) → Current J s) ∧
    ∀ labels a s s', Run.exec (step J) (initial : State ι K) labels = some s →
      step J s a = some s' → ¬ Timely s a →
      ∀ token kid user, J.decodeHeader token = some (some kid) →
        validate J s.keys s.nextFetch token kid = .ok user →
        ∃ more u, Run.exec (step J) initial (labels ++ a :: more) = some u ∧ ¬ Current J u := by
  constructor
  · intro labels s h htimely
    exact (Run.exec_invariant_of (fun _ _ _ => inv_step) h htimely inv_initial).current
  · intro labels a s s' h hs ha token kid user hheader hvalid
    obtain ⟨more, u, hu, hlate⟩ := late_of_not_timely hs ha hheader hvalid
    refine ⟨more, u, Run.exec_append_eq_some.mpr ⟨s, h, ?_⟩, hlate⟩
    exact Run.exec_cons_eq_some.mpr ⟨s', hs, hu⟩

/-! ## A failed fetch that keeps old keys in use -/

/-- One key, and a token that it has signed. -/
def oneKey : JsonWebToken Unit where
  decodeHeader _ := some (some "kid")
  decode _ _ _ := some ⟨none, some "user"⟩

def oneKeySet : List (Jwk Unit) := [⟨some .signature, some (), some "kid"⟩]

/-- The keys are fetched for a client that has a token. -/
def fetch : List (Label Bool Unit) :=
  [.refresh true, .enter true, .fetched true (some oneKeySet), .validate true "token"]

/-- The fetch five hours later, for another client, fails. -/
def outage : List (Label Bool Unit) :=
  [.tick (fromSecs (5 * 3600)), .validate false "token", .look false, .enter false,
    .fetched false none]

/-- In the second after that the token is accepted with keys that are five hours old. -/
theorem stale_keys_accepted : ∃ s,
    Run.exec (step oneKey) initial (fetch ++ outage) = some s ∧ ¬ Current oneKey s := by
  have h : (Run.exec (step oneKey) initial (fetch ++ outage)).any (fun s =>
      decide (s.lastFetch.map Prod.fst = some 0) && decide (s.clock = fromSecs (5 * 3600)) &&
      (step oneKey s (.look true)).any (fun s' =>
        decide (s'.pc true = .done (.ok (some "user"))))) = true := by
    decide +kernel
  rw [Option.any_eq_true] at h
  obtain ⟨s, hs, hfacts⟩ := h
  rw [Bool.and_eq_true, Bool.and_eq_true, decide_eq_true_eq, decide_eq_true_eq,
    Option.any_eq_true] at hfacts
  obtain ⟨⟨hfetch, hclock⟩, s', hlook, haccept⟩ := hfacts
  refine ⟨s, hs, fun hcurrent => ?_⟩
  obtain ⟨time, set, -, -, -, hlast, -, -, -, hle⟩ :=
    hcurrent true s' "user" hlook (of_decide_eq_true haccept)
  rw [hlast] at hfetch
  cases hfetch
  rw [hclock] at hle
  exact absurd hle (by decide)

/-- Two hours later a fetch fails, and the next one is given up. -/
def briefOutage : List (Label Bool Unit) :=
  [.tick (fromSecs (2 * 3600)), .validate false "token", .look false, .enter false,
    .fetched false none, .tick (fromSecs 2), .validate false "token", .look false, .enter false,
    .cancel false]

/-- If a fetch fails or is given up in the step, the next one is due within the max-age. -/
def dueInTime (s : State Bool Unit) : Label Bool Unit → Bool
  | .fetched _ none | .cancel _ => s.lastFetch.any fun last =>
    decide (s.nextFetch ≤ last.1 + MAX_AGE)
  | _ => true

theorem timely_of_dueInTime {s : State Bool Unit} {a : Label Bool Unit}
    (h : dueInTime s a = true) : Timely s a := by
  rintro i back - (rfl | rfl)
  all_goals
    obtain ⟨⟨time, set⟩, hlast, hdue⟩ := (Option.any_eq_true _ _).mp h
    exact Or.inr (Or.inr ⟨time, set, hlast, of_decide_eq_true hdue⟩)

/-- The token is accepted right after that, with keys that are still current. -/
theorem current_of_timely_outage : ∃ s s',
    Run.exec (step oneKey) initial (fetch ++ briefOutage) = some s ∧
      step oneKey s (.look true) = some s' ∧ s'.pc true = .done (.ok (some "user")) ∧
      s.lastFetch.map Prod.fst = some 0 ∧ s.clock = fromSecs (2 * 3600 + 2) ∧
      Current oneKey s := by
  have h : (Run.exec (step oneKey) initial (fetch ++ briefOutage)).any (fun s =>
      decide (s.lastFetch.map Prod.fst = some 0) &&
      decide (s.clock = fromSecs (2 * 3600 + 2)) &&
      (step oneKey s (.look true)).any (fun s' =>
        decide (s'.pc true = .done (.ok (some "user"))))) = true := by
    decide +kernel
  simp only [Option.any_eq_true, Bool.and_eq_true, decide_eq_true_eq] at h
  obtain ⟨s, hs, ⟨hlast, hclock⟩, s', hlook, haccept⟩ := h
  have hdue : ∀ k < (fetch ++ briefOutage).length, ((fetch ++ briefOutage)[k]?).all (fun a =>
      (Run.exec (step oneKey) initial ((fetch ++ briefOutage).take k)).all
        fun t => dueInTime t a) = true := by
    decide +kernel
  refine ⟨s, s', hs, hlook, haccept, hlast, hclock, (current_of_timely oneKey).1 _ s hs ?_⟩
  intro pre a post t he ht
  refine timely_of_dueInTime ?_
  have hk := hdue pre.length (by rw [he]; simp)
  rw [he, List.take_left, ht] at hk
  simpa using hk

end CfAccess

end Freighter
