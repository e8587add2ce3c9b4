import Freighter.FsIndex.Provider
import Freighter.Storage.Objects
import Freighter.Types.Response

/-!
# The listings of the filesystem index

`list` and `search` list the keys below `index/` and pull each file in a task of its own.

* `fetch`, `getLatestCratePublishes`, `convertPublishToCrateEntry`, `list`, `search`;
* `length_list`, `total_search`: what they say about keys whose files can be read.
* **`browse_complete_iff`**: over a bucket, the listings consider every crate exactly when S3
  answers in one page.

The order in which the tasks complete, the order of versions and the time of the call are
parameters.
-/

namespace Freighter

namespace FsIndex

/-! ## The calls -/

/-- `FileResponse`. -/
structure FileResponse where
  lastModified : Option ℤ
  data : Bytes

structure SparseEntries where
  entries : List CrateVersion
  lastModified : Option ℤ

section Calls

variable (L : Libs) (completion : List String → List String) (le : Version → Version → Bool)
  (now : ℤ) (listPrefix : String → Except StorageError (List String))
  (pull : String → Except StorageError FileResponse)

/-- The task of a key. -/
def fetch (indexKey : String) : Except IndexError (SparseEntries × Option Publish) :=
  match pull indexKey with
  | .error e => .error e.toIndexError
  | .ok res =>
    match deserializeData L res.data with
    | .error _ => .error .serviceError
    | .ok (entries, publish) => .ok (⟨entries, res.lastModified⟩, publish)

/-- The results of the tasks, in the order of their completion. -/
def getLatestCratePublishes (indexKeys : List String) :
    List (Except IndexError (SparseEntries × Option Publish)) :=
  (completion indexKeys).map (fetch L pull)

/-- The publish request of a file without one: that of its first entry. An index out of range is a
panic: `none`. -/
def publishOrFirst (entries : List CrateVersion) : Option Publish → Option Publish
  | some publish => some publish
  | none => entries.head?.map fun v => { Publish.empty with name := v.name, vers := v.vers }

def convertPublishToCrateEntry (versions : SparseEntries) (publish : Option Publish) :
    Option ListAllCrateEntry :=
  let entries := versions.entries.mergeSort fun v w => le w.vers v.vers
  (publishOrFirst entries publish).map fun publish => {
    name := publish.name
    versions := entries.map CrateVersion.vers
    description := publish.description.getD ""
    createdAt := versions.lastModified.getD now
    updatedAt := versions.lastModified.getD now
    homepage := publish.homepage
    repository := publish.repository
    documentation := publish.documentation
    keywords := publish.keywords
    categories := publish.categories }

/-- `list`, which does not use its query; `none` when it panics. A file that cannot be read is left
out. -/
def list : Option (Except IndexError ListAll) :=
  match listPrefix "index/" with
  | .error e => some (.error e.toIndexError)
  | .ok indexKeys =>
    (((getLatestCratePublishes L completion pull indexKeys).filterMap Except.toOption).mapM
      fun r => convertPublishToCrateEntry le now r.1 r.2).map .ok

/-- `str::contains`. -/
def containsText (queryString key : String) : Bool := queryString.toList <:+: key.toList

/-- The result for a file. -/
def searchEntry (r : Except IndexError (SparseEntries × Option Publish)) :
    Option SearchResultsEntry :=
  match r with
  | .error _ => none
  | .ok (versions, publishMeta) =>
    versions.entries.getLast?.map fun mostRecent =>
      ⟨mostRecent.name, mostRecent.vers, (publishMeta.bind Publish.description).getD ""⟩

def search (queryString : String) (limit : ℕ) : Except IndexError SearchResults :=
  match listPrefix "index/" with
  | .error e => .error e.toIndexError
  | .ok indexKeys =>
    let indexKeys := indexKeys.filter (containsText queryString)
    .ok ⟨(getLatestCratePublishes L completion pull (indexKeys.take (min limit 100))).filterMap
      searchEntry, indexKeys.length⟩

end Calls

/-! ## What they consider -/

section Consider

variable {L : Libs} {completion : List String → List String} {le : Version → Version → Bool}
  {now : ℤ} {listPrefix : String → Except StorageError (List String)}
  {pull : String → Except StorageError FileResponse} {indexKeys : List String}

variable (L pull) in
/-- The file can be read and has an entry. -/
def Readable (indexKey : String) : Prop :=
  ∃ versions publish, fetch L pull indexKey = .ok (versions, publish) ∧ versions.entries ≠ []

variable (le now) in
/-- A file with an entry is converted. -/
theorem convertPublishToCrateEntry_isSome (versions : SparseEntries) (publish : Option Publish)
    (h : versions.entries ≠ []) :
    ∃ entry, convertPublishToCrateEntry le now versions publish = some entry := by
  have hfirst : ∃ p, publishOrFirst (versions.entries.mergeSort fun v w => le w.vers v.vers)
      publish = some p := by
    cases publish with
    | some p => exact ⟨p, rfl⟩
    | none =>
      cases hs : versions.entries.mergeSort fun v w => le w.vers v.vers with
      | nil =>
        have hperm := List.mergeSort_perm versions.entries fun v w => le w.vers v.vers
        rw [hs] at hperm
        exact absurd hperm.nil_eq.symm h
      | cons v vs => exact ⟨_, rfl⟩
  obtain ⟨p, hp⟩ := hfirst
  exact ⟨_, congrArg (Option.map _) hp⟩

variable (le now) in
theorem mapM_convert : ∀ keys : List String, (∀ k ∈ keys, Readable L pull k) →
    ∃ entries, ((keys.map (fetch L pull)).filterMap Except.toOption).mapM
      (fun r => convertPublishToCrateEntry le now r.1 r.2) = some entries ∧
        entries.length = keys.length
  | [], _ => ⟨[], rfl, rfl⟩
  | k :: keys, h => by
    obtain ⟨versions, publish, hk, hne⟩ := h k List.mem_cons_self
    obtain ⟨entry, hentry⟩ := convertPublishToCrateEntry_isSome le now versions publish hne
    obtain ⟨entries, hentries, hlen⟩ :=
      mapM_convert keys fun k' hk' => h k' (List.mem_cons_of_mem _ hk')
    refine ⟨entry :: entries, ?_, congrArg (· + 1) hlen⟩
    rw [List.map_cons, hk]
    change List.mapM _ ((versions, publish) :: _) = _
    rw [List.mapM_cons, hentry, hentries]
    rfl

variable (le now) in
/-- **`list` has an entry for each key**, if the files can be read. -/
theorem length_list (hcompletion : ∀ ks, (completion ks).Perm ks)
    (hkeys : listPrefix "index/" = .ok indexKeys) (h : ∀ k ∈ indexKeys, Readable L pull k) :
    ∃ results, list L completion le now listPrefix pull = some (.ok results) ∧
      results.length = indexKeys.length := by
  obtain ⟨entries, hentries, hlen⟩ := mapM_convert le now (completion indexKeys)
    fun k hk => h k ((hcompletion indexKeys).mem_iff.mp hk)
  refine ⟨entries, ?_, hlen.trans (hcompletion indexKeys).length_eq⟩
  unfold list getLatestCratePublishes
  rw [hkeys]
  simp only [hentries, Option.map_some]

variable (L completion pull) in
/-- **`search` counts the keys** that have the query in them. -/
theorem total_search (hkeys : listPrefix "index/" = .ok indexKeys) (queryString : String)
    (limit : ℕ) :
    ∃ r, search L completion listPrefix pull queryString limit = .ok r ∧
      r.total = (indexKeys.filter (containsText queryString)).length := by
  unfold search
  rw [hkeys]
  exact ⟨_, rfl, rfl⟩

/-- Every key has the empty text in it. -/
theorem filter_containsText_empty (keys : List String) : keys.filter (containsText "") = keys :=
  List.filter_eq_self.mpr fun k _ => decide_eq_true (List.nil_infix (l := k.toList))

end Consider

/-! ## Over a bucket -/

section Bucket

open S3 (Bucket HasKeys Serves Truncates FillsPage Complete MAX_KEYS matching ListObjectsOutput)

variable {ε : Type} {listObjects : String → Except ε ListObjectsOutput} {b : Bucket}
  {keys : Finset String}

/-- The page has all the crates iff it is as long as their number. -/
theorem not_truncates_iff_length (h : Serves keys listObjects) (index : String) :
    ∃ page, S3.listPrefix listObjects index = .ok page ∧ page.Nodup ∧
      (∀ k ∈ page, k ∈ matching keys index) ∧
      (page.length = (matching keys index).card ↔ ¬ Truncates listObjects index) := by
  obtain ⟨page, truncated, hanswer, hpage⟩ := h index
  refine ⟨page, S3.listPrefix_of_answer hanswer, hpage.nodup, fun _ => hpage.mem, ?_⟩
  have hle : page.length ≤ (matching keys index).card := by
    rw [← Finset.length_sort (· ≤ ·)]
    exact hpage.front.length_le
  rw [S3.truncates_iff hanswer, hpage.marked]
  omega

/-- **`list` over S3** has an entry for each index file iff the answer is not truncated. -/
theorem list_complete_iff (L : Libs) {completion : List String → List String}
    (hcompletion : ∀ ks, (completion ks).Perm ks) (le : Version → Version → Bool) (now : ℤ)
    {pull : String → Except StorageError FileResponse} (h : Serves keys listObjects)
    (hread : ∀ k ∈ matching keys "index/", Readable L pull k) :
    (∃ results, list L completion le now (S3.listPrefix listObjects) pull = some (.ok results) ∧
      results.length = (matching keys "index/").card) ↔ ¬ Truncates listObjects "index/" := by
  obtain ⟨page, hpage, -, hmem, hlen⟩ := not_truncates_iff_length h "index/"
  obtain ⟨results, hresults, hl⟩ := length_list le now hcompletion hpage
    fun k hk => hread k (hmem k hk)
  rw [← hlen, ← hl]
  constructor
  · rintro ⟨results', h', hcard⟩
    rw [hresults] at h'
    cases h'
    exact hcard
  · exact fun hcard => ⟨results, hresults, hcard⟩

/-- **`search` over S3** counts each key with its query iff the answer is not truncated. -/
theorem search_complete_iff (L : Libs) (completion : List String → List String)
    (pull : String → Except StorageError FileResponse) (hb : HasKeys b keys)
    (h : Serves keys listObjects) :
    (∀ queryString limit, ∃ r,
      search L completion (S3.listPrefix listObjects) pull queryString limit = .ok r ∧
        r.total = ((matching keys "index/").filter fun k => containsText queryString k).card) ↔
      ¬ Truncates listObjects "index/" := by
  constructor
  · intro hall
    -- the empty query counts the whole answer
    obtain ⟨page, hpage, -, -, hlen⟩ := not_truncates_iff_length h "index/"
    obtain ⟨r, hr, htotal⟩ := hall "" 0
    obtain ⟨r', hr', htotal'⟩ := total_search L completion pull hpage "" 0
    cases hr.symm.trans hr'
    rw [filter_containsText_empty] at htotal'
    rw [← hlen, ← htotal', htotal]
    exact congrArg Finset.card (Finset.filter_true_of_mem fun k _ =>
      decide_eq_true (List.nil_infix (l := k.toList)))
  · intro ht queryString limit
    have hcomplete : Complete b "index/" (S3.listPrefix listObjects "index/") :=
      (S3.complete_iff hb h).mpr ht
    obtain ⟨out, ho, hn, hout⟩ := hcomplete
    obtain ⟨r, hr, htotal⟩ := total_search L completion pull ho queryString limit
    refine ⟨r, hr, htotal.trans (Paging.length_filter_eq_card hn (fun k => ?_) _)⟩
    rw [hout k, S3.mem_matching hb]

/-- **Exactly when the listings over S3 are complete.** The listing of a prefix returns every key of
the bucket with the prefix, once, iff the one answer of S3 is not truncated, which is, when S3
truncates full answers only, iff at most `MAX_KEYS` keys have the prefix. If the index files can be
read, `list` has an entry for each, and `search` counts each that has its query in it, iff the
answer for `index/` is not truncated. -/
theorem browse_complete_iff (L : Libs) (completion : List String → List String)
    (hcompletion : ∀ ks, (completion ks).Perm ks) (le : Version → Version → Bool) (now : ℤ)
    (pull : String → Except StorageError FileResponse) (b : Bucket) (keys : Finset String)
    (hb : HasKeys b keys) (listObjects : String → Except ε ListObjectsOutput)
    (h : Serves keys listObjects) :
    (∀ index, Complete b index (S3.listPrefix listObjects index) ↔ ¬ Truncates listObjects index) ∧
    (∀ index, FillsPage listObjects index → (Complete b index (S3.listPrefix listObjects index) ↔
      (matching keys index).card ≤ MAX_KEYS)) ∧
    ((∀ k ∈ matching keys "index/", Readable L pull k) →
      ((∃ results, list L completion le now (S3.listPrefix listObjects) pull =
          some (.ok results) ∧ results.length = (matching keys "index/").card) ↔
        ¬ Truncates listObjects "index/")) ∧
    ((∀ queryString limit, ∃ r,
        search L completion (S3.listPrefix listObjects) pull queryString limit = .ok r ∧
          r.total = ((matching keys "index/").filter fun k => containsText queryString k).card) ↔
      ¬ Truncates listObjects "index/") := by
  exact ⟨fun _ => S3.complete_iff hb h, fun _ => S3.complete_iff_le hb h,
    list_complete_iff L hcompletion le now h, search_complete_iff L completion pull hb h⟩

end Bucket

/-! ## A bucket of published crates -/

section Published

open S3 (Bucket HasKeys Serves Complete MAX_KEYS matching listFirst)

/-- The index files of `crate0`, `crate1` and so on. -/
def crateKeys (n : ℕ) : Finset String :=
  (Finset.range n).image fun i => "index/cr/at/crate" ++ i.repr

/-- The file of one version of `foo`. -/
def fooFile (L : Libs) : Bytes :=
  serializeData L [release foo (List.Vector.replicate 32 0)] (some foo)

def objectsAt (keys : Finset String) (data : Bytes) : Bucket :=
  fun k => if k ∈ keys then some data else none

theorem hasKeys_objectsAt (keys : Finset String) (data : Bytes) :
    HasKeys (objectsAt keys data) keys := by
  intro k
  by_cases hk : k ∈ keys <;> simp [objectsAt, hk]

theorem readable_fooFile (L : Libs) (k : String) :
    Readable L (fun _ => .ok ⟨none, fooFile L⟩) k := by
  refine ⟨⟨[release foo (List.Vector.replicate 32 0)], none⟩, some foo, ?_, List.cons_ne_nil _ _⟩
  simp only [fetch, fooFile, deserializeData_serializeData]

theorem card_matching_crateKeys (n : ℕ) : (matching (crateKeys n) "index/").card = n := by
  have hall : matching (crateKeys n) "index/" = crateKeys n := by
    refine Finset.filter_true_of_mem fun k hk => ?_
    obtain ⟨i, -, rfl⟩ := Finset.mem_image.mp hk
    rw [String.toList_append]
    exact (by decide : "index/".toList <+: "index/cr/at/crate".toList).trans
      (List.prefix_append _ _)
  rw [hall, crateKeys, Finset.card_image_of_injective, Finset.card_range]
  intro i j hij
  exact Nat.repr_injective (String.append_right_inj _ |>.mp hij)

/-- Of 1000 published crates none is lost, by the listing or by a search. -/
theorem browse_complete_thousand :
    let keys := crateKeys 1000
    let b := objectsAt keys (fooFile Libs.canonical)
    let pull : String → Except StorageError FileResponse :=
      fun _ => .ok ⟨none, fooFile Libs.canonical⟩
    Complete b "index/" (S3.listPrefix (listFirst keys) "index/") ∧
      (∃ results, list Libs.canonical id (fun _ _ => true) 0 (S3.listPrefix (listFirst keys)) pull =
        some (.ok results) ∧ results.length = 1000) ∧
      ∃ r, search Libs.canonical id (S3.listPrefix (listFirst keys)) pull "7" 10 = .ok r ∧
        r.total = ((matching keys "index/").filter fun k => containsText "7" k).card := by
  intro keys b pull
  have hb := hasKeys_objectsAt keys (fooFile Libs.canonical)
  have hserves := S3.serves_listFirst keys
  obtain ⟨hall, hpages, hlist, hsearch⟩ := browse_complete_iff Libs.canonical id
    (fun _ => List.Perm.refl _) (fun _ _ => true) 0 pull b keys hb (listFirst keys) hserves
  have hcomplete : Complete b "index/" (S3.listPrefix (listFirst keys) "index/") :=
    (hpages "index/" (S3.fillsPage_listFirst keys "index/")).mpr
      (by rw [card_matching_crateKeys]; decide)
  have hwhole := (hall "index/").mp hcomplete
  rw [card_matching_crateKeys] at hlist
  refine ⟨hcomplete, (hlist fun k _ => readable_fooFile Libs.canonical k).mpr hwhole, ?_⟩
  exact hsearch.mpr hwhole "7" 10

/-- Of 1001 published crates the listing loses one. -/
theorem browse_incomplete :
    let keys := crateKeys 1001
    let b := objectsAt keys (fooFile Libs.canonical)
    HasKeys b keys ∧ Serves keys (listFirst keys) ∧
      ¬ Complete b "index/" (S3.listPrefix (listFirst keys) "index/") ∧
      ¬ ∃ results, list Libs.canonical id (fun _ _ => true) 0 (S3.listPrefix (listFirst keys))
          (fun _ => .ok ⟨none, fooFile Libs.canonical⟩) = some (.ok results) ∧
        results.length = 1001 := by
  intro keys b
  have hb := hasKeys_objectsAt keys (fooFile Libs.canonical)
  have hserves := S3.serves_listFirst keys
  have htruncates : S3.Truncates (listFirst keys) "index/" :=
    S3.truncates_of_lt hserves (by rw [card_matching_crateKeys]; decide)
  refine ⟨hb, hserves, fun h => (S3.complete_iff hb hserves).mp h htruncates, ?_⟩
  rintro ⟨results, hresults, hcard⟩
  obtain ⟨page, hpage, -, -, hlen⟩ := not_truncates_iff_length hserves "index/"
  have hsame : ∀ ks : List String, (id ks).Perm ks := fun _ => List.Perm.refl _
  obtain ⟨results', hresults', hl⟩ := length_list (fun _ _ => true) 0 hsame hpage
    fun k _ => readable_fooFile Libs.canonical k
  cases hresults.symm.trans hresults'
  exact hlen.mp (by rw [← hl, hcard, card_matching_crateKeys]) htruncates

end Published

end FsIndex

end Freighter
