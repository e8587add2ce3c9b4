import Freighter.Pg.Listing
import Freighter.Server.Unauthorized

/-!
# The search endpoint over Postgres

`per_page` is documented with a maximum of 100, and the handler takes it for a minimum.

* `pgIndex`: the provider of the other modules; `granted_search`: a request that gets to it.
* `pageSize`: how many results a request asks for.
* **`search_page_iff`**: it gets them iff it asks for exactly 100, or for the default, or all the
  crates found fit.
-/

namespace Freighter

namespace Routes

/-! ## The provider -/

/-- What a call of the provider answers; for one that panics there is `crash`. -/
def orCrash {β : Type} (crash : IndexError) (r : Option (Except IndexError β)) :
    Except IndexError β := r.getD (.error crash)

/-- `PgIndexProvider`. -/
def pgIndex [LinearOrder Version] (S : Semver) (crash : IndexError) (io : PgIndex.Io)
    (fails : PgIndex.Request → Bool)
    (searchArrival : List PgIndex.SearchRow → List PgIndex.SearchRow)
    (listArrival : List PgIndex.ListRow → List PgIndex.ListRow) (stamps : PgIndex.Stamps) :
    IndexProvider PgIndex.Db where
  getSparseEntry crateName db := (orCrash crash (PgIndex.getSparseEntry S io db crateName), db)
  confirmExistence crateName version db :=
    (orCrash crash (PgIndex.confirmExistence io db crateName version), db)
  yankCrate crateName version db :=
    (PgIndex.yankInner io db crateName version true).map (orCrash crash) id
  unyankCrate crateName version db :=
    (PgIndex.yankInner io db crateName version false).map (orCrash crash) id
  search queryString limit db :=
    (orCrash crash (PgIndex.search S fails searchArrival db queryString limit), db)
  list pagination db := (orCrash crash (PgIndex.list S fails listArrival db stamps pagination), db)
  publish p tarballChecksum endStep w := PgIndex.publish io w.1 p tarballChecksum endStep w.2

/-! ## The endpoint -/

/-- How many results a request asks for: 10 by default, and at most 100. -/
def pageSize (perPage : Option ℕ) : ℕ := perPage.elim 10 (min · 100)

section Search

variable {α ι σ ε : Type} (L : Libs) {cfg : ServiceConfig} {X : Extractors} {A : AuthProvider α ε}
  {headers : HeaderMap} {a : α} {query : String}

/-- A check that the provider agrees to, or that is not asked for. -/
theorem whenAuthRequired_of_granted {r : Route} (h : cfg.authRequired = true →
    Granted L X A headers a r) (missing : Failure ε) {ask : String → Tx α ε Unit}
    (hask : ∀ t, check L X A t r = some (ask t)) :
    ∃ a', ∀ s : ι × σ, whenAuthRequired cfg (do
      let token ← Tx.lift (token A headers missing)
      onAuth (ask token)) (a, s) = (.ok (), a', s) := by
  unfold whenAuthRequired
  split_ifs with hreq
  · obtain ⟨t, ht, c, hc, hok⟩ := h hreq
    cases (hask t).symm.trans hc
    refine ⟨(ask t a).2, fun s => ?_⟩
    unfold token
    rw [ht]
    change onAuth (ask t) (a, s) = _
    unfold onAuth Tx.onFst
    rw [Tx.mapError_apply, hok]
    rfl
  · exact ⟨a, fun s => rfl⟩

variable (cfg X A headers a query) in
/-- **A request that gets to the provider.** -/
theorem granted_search {q : SearchQuery} (hquery : X.searchQuery query = .ok q)
    (h : cfg.authRequired = true → Granted L X A headers a (.search query)) {I : IndexProvider ι}
    {r : SearchResults} {i i' : ι} (hsearch : I.search q.q (q.perPage.elim 10 (max · 100)) i =
      (.ok r, i')) (s : σ) :
    ∃ a', search cfg X A I headers query (a, i, s) = (.ok r, a', i', s) := by
  have hask : ∀ t, check L X A t (.search query) = some (A.authViewFullIndex t) := by
    intro t
    rw [check, hquery]
    rfl
  obtain ⟨a', hauth⟩ := whenAuthRequired_of_granted (ι := ι) (σ := σ) L h
    (.status 401 "Auth token missing") hask
  refine ⟨a', ?_⟩
  unfold search
  rw [hquery]
  change (whenAuthRequired cfg _ >>= _) (a, i, s) = _
  rw [Tx.bind_of_ok (hauth (i, s))]
  unfold onIndex Tx.onSnd Tx.onFst
  simp only [Tx.mapError_apply, hsearch]
  rfl

/-- The handler asks for at least 100 results, and gets what it should when these are the same. -/
theorem take_limit_iff {β : Type} (es : List β) (perPage : Option ℕ) :
    es.take (perPage.elim 10 (max · 100)) = es.take (pageSize perPage) ↔
      ∀ n, perPage = some n → n = 100 ∨ es.length ≤ min n 100 := by
  rw [List.take_eq_take_iff]
  unfold pageSize
  cases perPage with
  | none => exact ⟨fun _ => nofun, fun _ => rfl⟩
  | some n =>
    simp only [Option.elim_some, Option.some.injEq, forall_eq']
    omega

end Search

section Claim

variable [LinearOrder Version] {α σ ε : Type}

/-- **Exactly when a search gets a page of the size it asks for.** In every consistent database, a
request that the auth provider agrees to, or does not see, is answered with the number of all crates
found and with the first of them. These are as many as it asks for, 10 by default and at most 100,
iff it asks for the default or for 100, or all crates found are at most as many. -/
theorem search_page_iff (S : Semver) (L : Libs) (cfg : ServiceConfig) (X : Extractors)
    (A : AuthProvider α ε) (headers : HeaderMap) (a : α) (query : String) (q : SearchQuery)
    (hquery : X.searchQuery query = .ok q)
    (hgranted : cfg.authRequired = true → Granted L X A headers a (.search query))
    (db : PgIndex.Db) (h : PgIndex.Consistent db) (crash : IndexError) (io : PgIndex.Io)
    (searchArrival : List PgIndex.SearchRow → List PgIndex.SearchRow)
    (harrival : ∀ rows, (searchArrival rows).Perm rows)
    (listArrival : List PgIndex.ListRow → List PgIndex.ListRow) (stamps : PgIndex.Stamps) (s : σ) :
    ∃ es : List SearchResultsEntry, es.length = (db.found q.q).length ∧
      (∀ limit, PgIndex.search S (fun _ => false) searchArrival db q.q limit =
        some (.ok ⟨es.take limit, es.length⟩)) ∧
      ∃ r a', search cfg X A
          (pgIndex S crash io (fun _ => false) searchArrival listArrival stamps) headers query
            (a, db, s) = (.ok r, a', db, s) ∧
        r.total = (db.found q.q).length ∧
        (r.crates = es.take (pageSize q.perPage) ↔
          ∀ n, q.perPage = some n → n = 100 ∨ (db.found q.q).length ≤ min n 100) := by
  obtain ⟨cs, es, hperm, -, hes, hsearch⟩ := PgIndex.search_eq S h harrival q.q
  have hlen : es.length = (db.found q.q).length := hes.length_eq.symm.trans hperm.length_eq
  have hcall : (pgIndex S crash io (fun _ => false) searchArrival listArrival stamps).search q.q
      (q.perPage.elim 10 (max · 100)) db =
        (.ok ⟨es.take (q.perPage.elim 10 (max · 100)), es.length⟩, db) := by
    unfold pgIndex orCrash
    simp only [hsearch, Option.getD_some]
  obtain ⟨a', hanswer⟩ := granted_search L cfg X A headers a query hquery hgranted hcall s
  refine ⟨es, hlen, hsearch, _, a', hanswer, hlen, ?_⟩
  rw [← hlen]
  exact take_limit_iff es q.perPage

end Claim

/-! ## Two crates -/

/-- A server that asks for no authorisation. -/
def openConfig : ServiceConfig := ⟨"https://dl", "https://api", false, 1024⟩

/-- Extractors for which every query is for all crates, `perPage` of them. -/
def allExtractors (perPage : Option ℕ) : Extractors :=
  { fooExtractors with searchQuery := fun _ => .ok ⟨"", perPage⟩ }

theorem length_found : let db := Run.final PgIndex.step PgIndex.Db.empty PgIndex.fooAndBar
    (db.found "").length = 2 := by
  decide +kernel

/-- A request for 100 results gets them. -/
theorem search_page_hundred : letI : LinearOrder Version := precedence
    let db := Run.final PgIndex.step PgIndex.Db.empty PgIndex.fooAndBar
    ∃ (es : List SearchResultsEntry) (r : SearchResults) (a' : FsAuth.FsAuthProvider),
      es.length = 2 ∧ search openConfig (allExtractors (some 100))
        (fsAuth FsAuth.testHash {})
        (pgIndex Semver.canonical .serviceError {} (fun _ => false) id id PgIndex.Stamps.empty) []
          "" (FsAuth.new .missing, db, ()) = (.ok r, a', db, ()) ∧
      r.crates = es.take 100 := by
  let _ : LinearOrder Version := precedence
  intro db
  obtain ⟨es, hlen, -, r, a', hr, -, hiff⟩ := search_page_iff Semver.canonical Libs.canonical
    openConfig (allExtractors (some 100)) (fsAuth FsAuth.testHash {}) [] (FsAuth.new .missing) ""
    ⟨"", some 100⟩ rfl nofun db (PgIndex.consistent_final _) .serviceError {} id
    (fun _ => List.Perm.refl _) id PgIndex.Stamps.empty ()
  refine ⟨es, r, a', hlen.trans length_found, hr, hiff.mpr ?_⟩
  intro n hn
  cases hn
  exact Or.inl rfl

/-- A request for one result gets two. -/
theorem search_page_one : letI : LinearOrder Version := precedence
    let db := Run.final PgIndex.step PgIndex.Db.empty PgIndex.fooAndBar
    PgIndex.Consistent db ∧ ∃ r a', search openConfig (allExtractors (some 1))
        (fsAuth FsAuth.testHash {})
        (pgIndex Semver.canonical .serviceError {} (fun _ => false) id id PgIndex.Stamps.empty) []
          "" (FsAuth.new .missing, db, ()) = (.ok r, a', db, ()) ∧
      r.crates.length = 2 ∧ ∀ es, r.crates ≠ List.take (pageSize (some 1)) es := by
  let _ : LinearOrder Version := precedence
  intro db
  have h : PgIndex.Consistent db := PgIndex.consistent_final _
  obtain ⟨cs, es, hperm, -, hes, hsearch⟩ := PgIndex.search_eq Semver.canonical h
    (fun rows => List.Perm.refl (id rows)) ""
  have hlen : es.length = 2 := (hes.length_eq.symm.trans hperm.length_eq).trans length_found
  have hcall : (pgIndex Semver.canonical .serviceError {} (fun _ => false) id id
      PgIndex.Stamps.empty).search "" 100 db = (.ok ⟨es.take 100, es.length⟩, db) := by
    unfold pgIndex orCrash
    simp only [hsearch, Option.getD_some]
  obtain ⟨a', hanswer⟩ := granted_search Libs.canonical openConfig (allExtractors (some 1))
    (fsAuth FsAuth.testHash {}) [] (FsAuth.new .missing) "" (q := ⟨"", some 1⟩) rfl nofun hcall ()
  have htwo : (es.take 100).length = 2 := by
    rw [List.length_take, hlen]
    rfl
  refine ⟨h, _, a', hanswer, htwo, fun es' he => ?_⟩
  have hone : (es.take 100).length = (List.take (pageSize (some 1)) es').length :=
    congrArg List.length he
  rw [htwo, List.length_take, show pageSize (some 1) = 1 from rfl] at hone
  omega

end Routes

end Freighter
