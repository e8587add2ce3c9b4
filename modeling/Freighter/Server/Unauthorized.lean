import Freighter.Server.Routes

/-!
# Unauthorised requests

With `auth_required`, a request without a token that the provider accepts is answered without a look
at the index or the storage.

* `check`: what the provider is asked about a request; `Granted`: it is asked and agrees;
* `stops_handle`: the handler of any other request fails before it reaches the stores.
* **`unauthorized_learns_nothing`**: in any two states of the stores the response is the same, and
  the stores are left as they are.
-/

namespace Freighter

namespace Routes

variable {α ι σ ε β : Type} (L : Libs) (sha256 : Bytes → Checksum) (cfg : ServiceConfig)
  (X : Extractors) (A : AuthProvider α ε) (I : IndexProvider ι) (S : StorageProvider σ)
  (headers : HeaderMap)

/-- What the provider is asked about a request with a token, when the request says enough. -/
def check (token : String) : Route → Option (Tx α ε Unit)
  | .config => some (A.authConfig token)
  | .getSparseMeta path =>
    (X.crateIndexPath path).toOption.bind rsplitOnce |>.map fun x => A.authIndexFetch token x.2
  | .serveCrate path =>
    (X.nameAndVersion path).toOption.map fun x => A.authCrateDownload token x.1
  | .search query => (X.searchQuery query).toOption.map fun _ => A.authViewFullIndex token
  | .list query => (X.listQuery query).toOption.map fun _ => A.authViewFullIndex token
  | .publish body =>
    (decodeBody L body : Except (Failure ε) _).toOption.map fun x => A.publish token x.1.name
  | .yank path => (X.nameAndVersion path).toOption.map fun x => A.authYank token x.1
  | .unyank path => (X.nameAndVersion path).toOption.map fun x => A.authYank token x.1

/-- The request has a token, and the provider in state `a` accepts it for the request. -/
def Granted (a : α) (r : Route) : Prop :=
  ∃ token, A.tokenFromHeaders headers = .ok (some token) ∧
    ∃ c ∈ check L X A token r, (c a).1 = .ok ()

variable {L sha256 cfg X A I S headers} {a : α} {r : Route}

theorem stops_check {f : Unit → Handler α ι σ ε β} {c : Tx α ε Unit} (h : (c a).1 ≠ .ok ()) :
    Tx.Stops (onAuth c >>= f) a :=
  (Tx.stops_onFst fun _ => h).bind f

/-- The token comes first, and then a check that does not agree. -/
theorem stops_token {missing : Failure ε} {f : String → Handler α ι σ ε β}
    (h : ∀ token, A.tokenFromHeaders headers = .ok (some token) → Tx.Stops (f token) a) :
    Tx.Stops (Tx.lift (token A headers missing) >>= f) a := by
  refine Tx.stops_lift_bind fun t ht => h t ?_
  unfold token at ht
  split at ht <;> simp_all

theorem refused_of_not_granted (h : ¬ Granted L X A headers a r) {token : String}
    (ht : A.tokenFromHeaders headers = .ok (some token)) {c : Tx α ε Unit}
    (hc : check L X A token r = some c) : (c a).1 ≠ .ok () :=
  fun hok => h ⟨token, ht, c, hc, hok⟩

theorem extract_eq_ok {r : Except String β} {b : β}
    (h : (extract r : Except (Failure ε) β) = .ok b) : r = .ok b := by
  cases r with
  | error e => cases h
  | ok b' =>
    cases h
    rfl

/-! ## The handlers -/

/-- A handler that asks the provider when the configuration says so. -/
theorem stops_whenAuthRequired (hreq : cfg.authRequired = true)
    (h : ¬ Granted L X A headers a r) {missing : Failure ε} {ask : String → Tx α ε Unit}
    (hask : ∀ t, check L X A t r = some (ask t)) (f : Unit → Handler α ι σ ε β) :
    Tx.Stops ((whenAuthRequired cfg do
      let token ← Tx.lift (token A headers missing)
      onAuth (ask token)) >>= f) a := by
  unfold whenAuthRequired
  rw [if_pos hreq]
  refine Tx.Stops.bind (stops_token fun t ht => ?_) f
  exact Tx.stops_onFst fun _ => refused_of_not_granted h ht (hask t)

theorem stops_config (hreq : cfg.authRequired = true) (h : ¬ Granted L X A headers a .config) :
    Tx.Stops (config cfg A headers : Handler α ι σ ε RegistryConfig) a :=
  stops_whenAuthRequired hreq h (fun _ => rfl) _

theorem stops_getSparseMeta (hreq : cfg.authRequired = true) {path : String}
    (h : ¬ Granted L X A headers a (.getSparseMeta path)) :
    Tx.Stops (getSparseMeta cfg X A I headers path : Handler α ι σ ε (List CrateVersion)) a := by
  refine Tx.stops_lift_bind fun crateIndexPath hpath => ?_
  cases hsplit : rsplitOnce crateIndexPath with
  | none => exact Tx.stops_fail _ _
  | some x =>
    refine stops_whenAuthRequired hreq h (fun t => ?_) _
    rw [check, extract_eq_ok hpath, Except.toOption, Option.bind_some, hsplit, Option.map_some]

theorem stops_serveCrate (hreq : cfg.authRequired = true) {path : String}
    (h : ¬ Granted L X A headers a (.serveCrate path)) :
    Tx.Stops (serveCrate cfg X A I S headers path) a := by
  refine Tx.stops_lift_bind fun x hx => stops_whenAuthRequired hreq h (fun t => ?_) _
  rw [check, extract_eq_ok hx, Except.toOption, Option.map_some]

theorem stops_search (hreq : cfg.authRequired = true) {query : String}
    (h : ¬ Granted L X A headers a (.search query)) :
    Tx.Stops (search cfg X A I headers query : Handler α ι σ ε SearchResults) a := by
  refine Tx.stops_lift_bind fun x hx => stops_whenAuthRequired hreq h (fun t => ?_) _
  rw [check, extract_eq_ok hx, Except.toOption, Option.map_some]

theorem stops_list (hreq : cfg.authRequired = true) {query : String}
    (h : ¬ Granted L X A headers a (.list query)) :
    Tx.Stops (list cfg X A I headers query : Handler α ι σ ε ListAll) a := by
  refine Tx.stops_lift_bind fun x hx => stops_whenAuthRequired hreq h (fun t => ?_) _
  rw [check, extract_eq_ok hx, Except.toOption, Option.map_some]

theorem stops_publish {body : Bytes} (h : ¬ Granted L X A headers a (.publish body)) :
    Tx.Stops (publish L sha256 cfg A I S headers body) a := by
  unfold publish
  split_ifs
  · exact Tx.stops_fail _ _
  · refine stops_token fun t ht => Tx.stops_lift_bind fun x hx => ?_
    refine stops_check (refused_of_not_granted h ht ?_)
    rw [check, hx, Except.toOption, Option.map_some]

/-- `yank` and `unyank`, which the provider is asked the same about. -/
theorem stops_yankWith {call : String → Version → Tx ι IndexError Unit} {path : String}
    (hr : ∀ t, check L X A t r = (X.nameAndVersion path).toOption.map fun x => A.authYank t x.1)
    (h : ¬ Granted L X A headers a r) :
    Tx.Stops (yankWith X A headers call path : Handler α ι σ ε Unit) a := by
  refine Tx.stops_lift_bind fun x hx => stops_token fun t ht => ?_
  refine stops_check (refused_of_not_granted h ht ?_)
  rw [hr, extract_eq_ok hx, Except.toOption, Option.map_some]

/-- **A request that is not granted fails before it reaches the stores.** -/
theorem stops_handle (hreq : cfg.authRequired = true) (h : ¬ Granted L X A headers a r) :
    Tx.Stops (handle L sha256 cfg X A I S headers r) a := by
  cases r with
  | config => exact (stops_config hreq h).bind _
  | getSparseMeta path => exact (stops_getSparseMeta hreq h).bind _
  | serveCrate path => exact (stops_serveCrate hreq h).bind _
  | search query => exact (stops_search hreq h).bind _
  | list query => exact (stops_list hreq h).bind _
  | publish body => exact (stops_publish h).bind _
  | yank path => exact (stops_yankWith (fun _ => rfl) h).bind _
  | unyank path => exact (stops_yankWith (fun _ => rfl) h).bind _

variable (L sha256 X A I S headers) in
/-- **Unauthorised requests learn and change nothing.** -/
theorem unauthorized_learns_nothing (hreq : cfg.authRequired = true) (a : α) (r : Route)
    (h : ¬ Granted L X A headers a r) (s t : ι × σ) :
    (handle L sha256 cfg X A I S headers r (a, s)).1 =
        (handle L sha256 cfg X A I S headers r (a, t)).1 ∧
      (handle L sha256 cfg X A I S headers r (a, s)).2.2 = s ∧
      (handle L sha256 cfg X A I S headers r (a, t)).2.2 = t := by
  have hstops : Tx.Stops (handle L sha256 cfg X A I S headers r) a := stops_handle hreq h
  obtain ⟨e, a', hstop⟩ := hstops
  rw [hstop s, hstop t]
  exact ⟨rfl, rfl, rfl⟩

/-! ## A request with a token that nobody has -/

/-- A server that asks for authorisation everywhere. -/
def closedConfig : ServiceConfig := ⟨"https://dl", "https://api", true, 1024⟩

/-- Extractors for which every path is the one of foo-1.0.0. -/
def fooExtractors : Extractors where
  crateIndexPath _ := .ok "fo/o/foo"
  nameAndVersion _ := .ok ("foo", Version.new 1 0 0)
  searchQuery _ := .ok ⟨"foo", none⟩
  listQuery _ := .ok ⟨none, none⟩

/-- The header of a token that is no token. -/
def strangerHeaders : HeaderMap := [("authorization", [120])]

theorem not_granted_stranger :
    ¬ Granted Libs.canonical fooExtractors (fsAuth FsAuth.testHash {}) strangerHeaders
      (FsAuth.new .missing) (.serveCrate "foo/1.0.0") := by
  rintro ⟨token, ht, c, hc, hok⟩
  have htoken : token = "x" := by
    have hx : defaultTokenFromHeaders strangerHeaders = .ok (some "x") := by decide
    exact (Option.some.inj (Except.ok.inj (hx.symm.trans ht))).symm
  cases hc
  rw [htoken] at hok
  cases hok

theorem unauthorized_learns_nothing_stranger :
    let serve := handle Libs.canonical abcHash closedConfig fooExtractors
      (fsAuth FsAuth.testHash {})
      (fsIndex Libs.canonical {} (fun _ _ => Tx.answer ⟨[], 0⟩) (fun _ => Tx.answer []))
      (s3 {} false false) strangerHeaders (.serveCrate "foo/1.0.0")
    (serve (FsAuth.new .missing, fun _ => none, fun _ => none)).1 =
        (serve (FsAuth.new .missing, fun _ => some [], fun _ => some [97])).1 ∧
      (serve (FsAuth.new .missing, fun _ => none, fun _ => none)).2.2 =
        (fun _ => none, fun _ => none) ∧
      (serve (FsAuth.new .missing, fun _ => some [], fun _ => some [97])).2.2 =
        (fun _ => some [], fun _ => some [97]) :=
  unauthorized_learns_nothing Libs.canonical abcHash fooExtractors _ _ _ strangerHeaders rfl
    _ _ not_granted_stranger _ _

end Routes

end Freighter
