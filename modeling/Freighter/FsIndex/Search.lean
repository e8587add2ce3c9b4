import Freighter.FsIndex.Browse
import Freighter.FsIndex.Releases
import Freighter.FsIndex.Versions
import Mathlib.Data.Set.Card

/-!
# What a search of the filesystem index finds

`search` looks for the query in the keys, and a key has directories before the name.

* `Lists`: a listing of the files; `pullFrom`: reads of the files, some of which fail;
* `FindsByName`: what a search by name returns;
* `Strays`: the query is in the directories of a crate and not in its name; **`contains_keyPath`**;
* **`search_iff`**, **`search_finds_by_name_iff`**: a search finds crates by name iff the query
  strays into no directory and no read fails.
-/

namespace Freighter

namespace FsIndex

/-! ## What a search should find -/

/-- A listing of the files, each once. -/
structure Lists (files : Files) (keys : List String) : Prop where
  nodup : keys.Nodup
  mem : ∀ k, k ∈ keys ↔ files k ≠ none

/-- The reads of the files at these times; some fail. -/
def pullFrom (times : String → Option ℤ) (fails : String → Bool) (files : Files) (path : String) :
    Except StorageError FileResponse :=
  (pullFile (fails path) files path).map fun data => ⟨times path, data⟩

/-- **A search by name**: crates whose lowercase name has the query in it, as many as the limits
allow and none twice, with the number of all of them. -/
structure FindsByName (crates : Set String) (queryString : String) (limit : ℕ)
    (r : SearchResults) : Prop where
  named : ∀ e ∈ r.crates, toAsciiLowercase e.name ∈ crates ∧
    containsText queryString (toAsciiLowercase e.name) = true
  total : r.total = {key ∈ crates | containsText queryString key = true}.ncard
  length : r.crates.length = min (min limit 100) r.total
  distinct : (r.crates.map fun e => toAsciiLowercase e.name).Nodup

/-- The query is not in the name, but is a part of `index`, or the length of a name of at most 3
letters, or has a slash and is in the path. -/
def Strays (queryString key : String) : Prop :=
  containsText queryString key = false ∧
    (containsText queryString "index" = true ∨
      key.toList.length ≤ 3 ∧ queryString = key.toList.length.repr ∨
      '/' ∈ queryString.toList ∧ containsText queryString (keyPath key) = true)

instance (queryString key : String) : Decidable (Strays queryString key) := by
  unfold Strays
  infer_instance

section Strays

variable {key queryString : String}

theorem containsText_iff (queryString key : String) :
    containsText queryString key = true ↔ queryString.toList <:+: key.toList :=
  decide_eq_true_iff

/-- The directory of a name has its length, if it is short, and parts of the name. -/
theorem infix_metaDir {q cs dir : List Char} (hd : metaDir cs = some dir) (hq : '/' ∉ q)
    (hne : ¬ q <:+: cs) : q <:+: dir ↔ cs.length ≤ 3 ∧ q = cs.length.repr.toList := by
  have hnil : q ≠ [] := fun e => hne (e ▸ List.nil_infix)
  have hpart : ∀ {part : List Char}, part <:+: cs → ¬ q <:+: part :=
    fun hp h => hne (h.trans hp)
  rcases cs with _ | ⟨a, _ | ⟨b, _ | ⟨c, _ | ⟨d, cs⟩⟩⟩⟩ <;> cases hd
  · rw [List.infix_singleton_iff, or_iff_right hnil,
      show ['1'] = (1 : ℕ).repr.toList by decide]
    exact ⟨fun h => ⟨by simp, h⟩, And.right⟩
  · rw [List.infix_singleton_iff, or_iff_right hnil,
      show ['2'] = (2 : ℕ).repr.toList by decide]
    exact ⟨fun h => ⟨by simp, h⟩, And.right⟩
  · have ha : ¬ q <:+: [a] := hpart ⟨[], [b, c], rfl⟩
    rw [show ['3', '/', a] = ['3'] ++ '/' :: [a] from rfl, Text.infix_append_cons hq,
      or_iff_left ha, List.infix_singleton_iff, or_iff_right hnil,
      show ['3'] = (3 : ℕ).repr.toList by decide]
    exact ⟨fun h => ⟨by simp, h⟩, And.right⟩
  · have hab : ¬ q <:+: [a, b] := hpart ⟨[], c :: d :: cs, rfl⟩
    have hcd : ¬ q <:+: [c, d] := hpart ⟨[a, b], cs, rfl⟩
    rw [show [a, b, '/', c, d] = [a, b] ++ '/' :: [c, d] from rfl, Text.infix_append_cons hq]
    refine ⟨fun h => (h.elim hab hcd).elim, fun h => absurd h.1 ?_⟩
    simp

/-- **Where the query is in a path**: in the name, or it strays. -/
theorem contains_keyPath (hkey : crateMetaFileRelPath key = some (keyPath key)) :
    containsText queryString (keyPath key) = true ↔
      containsText queryString key = true ∨ Strays queryString key := by
  obtain ⟨hslash, -⟩ := crateMetaFileRelPath_eq_some hkey
  have hname : '/' ∉ key.toList := fun hm => hslash '/' hm rfl
  obtain ⟨dir, hd, hpath⟩ : ∃ dir, metaDir key.toList = some dir ∧
      (keyPath key).toList = "index".toList ++ '/' :: (dir ++ '/' :: key.toList) := by
    unfold crateMetaFileRelPath at hkey
    simp only at hkey
    split_ifs at hkey
    obtain ⟨dir, hd, hpath⟩ := Option.map_eq_some_iff.mp hkey
    refine ⟨dir, hd, ?_⟩
    rw [← hpath, String.toList_ofList]
    rfl
  have hin : containsText queryString key = true →
      containsText queryString (keyPath key) = true := by
    simp only [containsText_iff, hpath]
    intro h
    refine h.trans ⟨"index".toList ++ '/' :: (dir ++ ['/']), [], ?_⟩
    simp
  by_cases hc : containsText queryString key = true
  · exact ⟨fun _ => Or.inl hc, fun _ => hin hc⟩
  rw [or_iff_right hc]
  unfold Strays
  rw [Bool.not_eq_true] at hc
  rw [and_iff_right hc]
  by_cases hq : '/' ∈ queryString.toList
  · refine ⟨fun h => Or.inr (Or.inr ⟨hq, h⟩), ?_⟩
    rintro (h | ⟨-, rfl⟩ | ⟨-, h⟩)
    · rw [containsText_iff] at h
      exact absurd (h.subset hq) (by decide)
    · exact absurd (Text.isDigit_of_mem_repr hq) (by decide)
    · exact h
  · have hne : ¬ queryString.toList <:+: key.toList := by
      rw [← containsText_iff, hc]
      exact Bool.false_ne_true
    have hlength : queryString = key.toList.length.repr ↔
        queryString.toList = key.toList.length.repr.toList := String.toList_inj.symm
    simp only [containsText_iff, hpath, Text.infix_append_cons hq, infix_metaDir hd hq hne,
      hne, or_false, hq, false_and, hlength]

end Strays

/-! ## What a search returns -/

section Search

variable {L : Libs} {files : Files} {calls : List IndexOp} {times : String → Option ℤ}
  {fails : String → Bool} {keys : List String} {key path : String} {p : Publish} {ck : Checksum}

theorem fetch_of_contentsOf {entries : List CrateVersion} {publish : Option Publish}
    (hf : fails path = false) (hc : contentsOf L files path = some (entries, publish)) :
    fetch L (pullFrom times fails files) path = .ok (⟨entries, times path⟩, publish) := by
  obtain ⟨data, hdata, hparse⟩ := contentsOf_eq_some.mp hc
  simp [fetch, pullFrom, pullFile, hf, hdata, hparse, Except.map]

theorem fetch_of_fails (hf : fails path = true) :
    fetch L (pullFrom times fails files) path = .error StorageError.serviceError.toIndexError := by
  simp [fetch, pullFrom, pullFile, hf, Except.map]

/-- The last release of a crate is of the crate. -/
theorem key_of_last (h : (releases key calls).getLast? = some (p, ck)) :
    toAsciiLowercase p.name = key :=
  (mem_releases.mp (List.mem_of_getLast? h)).2

variable (times) in
/-- **The result for a crate is its last release.** -/
theorem Records.searchEntry_eq (h : Records L files calls) (hkey : IsCrate key calls)
    (hf : fails (keyPath key) = false) :
    ∃ p ck, (releases key calls).getLast? = some (p, ck) ∧
      searchEntry (fetch L (pullFrom times fails files) (keyPath key)) =
        some ⟨p.name, p.vers, p.description.getD ""⟩ := by
  obtain ⟨entries, v, p, ck, hc, hv, hlast, hu⟩ := h.last hkey
  obtain ⟨hname, hvers, -⟩ := of_unflagged_eq_release hu
  refine ⟨p, ck, hlast, ?_⟩
  rw [fetch_of_contentsOf hf hc]
  simp only [searchEntry, hv, Option.map_some, hname, hvers, Option.bind_some]

/-- The results are of the files that could be read, in their order. -/
theorem Records.paths_of_results (h : Records L files calls) : ∀ ks : List String,
    (∀ k ∈ ks, files k ≠ none) →
    ((ks.map (fetch L (pullFrom times fails files))).filterMap searchEntry).map
      (fun e => keyPath (toAsciiLowercase e.name)) = ks.filter fun k => !fails k
  | [], _ => rfl
  | k :: ks, hlive => by
    have ih := h.paths_of_results ks fun k' hk' => hlive k' (List.mem_cons_of_mem _ hk')
    rw [List.map_cons]
    by_cases hf : fails k = true
    · rw [List.filter_cons_of_neg (by simp [hf]), fetch_of_fails hf]
      exact ih
    · rw [Bool.not_eq_true] at hf
      obtain ⟨key, hkey, rfl⟩ := h.live_iff.mp (hlive k List.mem_cons_self)
      obtain ⟨p, ck, hlast, he⟩ := h.searchEntry_eq times hkey hf
      rw [List.filter_cons_of_pos (by simp [hf]), List.filterMap_cons_some he, List.map_cons, ih]
      simp only [key_of_last hlast]

/-- **A result is the last release of a crate** whose file was read. -/
theorem Records.last_of_mem_results (h : Records L files calls) {ks : List String}
    (hlive : ∀ k ∈ ks, files k ≠ none) {e : SearchResultsEntry}
    (he : e ∈ (ks.map (fetch L (pullFrom times fails files))).filterMap searchEntry) :
    ∃ p ck, (releases (toAsciiLowercase e.name) calls).getLast? = some (p, ck) ∧
      p.vers = e.maxVersion ∧ keyPath (toAsciiLowercase e.name) ∈ ks := by
  obtain ⟨r, hr, he⟩ := List.mem_filterMap.mp he
  obtain ⟨k, hk, rfl⟩ := List.mem_map.mp hr
  have hf : fails k = false := by
    by_contra hf
    rw [Bool.not_eq_false] at hf
    rw [fetch_of_fails hf] at he
    cases he
  obtain ⟨key, hkey, rfl⟩ := h.live_iff.mp (hlive k hk)
  obtain ⟨p, ck, hlast, he'⟩ := h.searchEntry_eq times hkey hf
  cases he.symm.trans he'
  dsimp only
  rw [key_of_last hlast]
  exact ⟨p, ck, hlast, rfl, hk⟩

theorem Records.of_mem_results (h : Records L files calls) {ks : List String}
    (hlive : ∀ k ∈ ks, files k ≠ none) {e : SearchResultsEntry}
    (he : e ∈ (ks.map (fetch L (pullFrom times fails files))).filterMap searchEntry) :
    IsCrate (toAsciiLowercase e.name) calls ∧ keyPath (toAsciiLowercase e.name) ∈ ks := by
  obtain ⟨p, ck, hlast, -, hk⟩ := h.last_of_mem_results hlive he
  exact ⟨List.ne_nil_of_mem (List.mem_of_getLast? hlast), hk⟩

/-- The paths with the query in them are of the crates that have it in their name or astray. -/
theorem Records.card_matches (h : Records L files calls) (hl : Lists files keys)
    (queryString : String) : (keys.filter (containsText queryString)).length =
      {key | IsCrate key calls ∧
        (containsText queryString key = true ∨ Strays queryString key)}.ncard := by
  have hinj : Set.InjOn keyPath {key | IsCrate key calls ∧
      (containsText queryString key = true ∨ Strays queryString key)} :=
    fun key hkey key' hkey' heq => h.key_eq hkey.1 (h.allowed key' hkey'.1) heq
  have himage : keyPath '' {key | IsCrate key calls ∧
      (containsText queryString key = true ∨ Strays queryString key)} =
      ↑(keys.filter (containsText queryString)).toFinset := by
    ext path
    rw [Finset.mem_coe, List.mem_toFinset, List.mem_filter, hl.mem, h.live_iff]
    constructor
    · rintro ⟨key, ⟨hkey, hq⟩, rfl⟩
      exact ⟨⟨key, hkey, rfl⟩, (contains_keyPath (h.allowed key hkey)).mpr hq⟩
    · rintro ⟨⟨key, hkey, rfl⟩, hq⟩
      exact ⟨key, ⟨hkey, (contains_keyPath (h.allowed key hkey)).mp hq⟩, rfl⟩
  rw [← hinj.ncard_image, himage, Set.ncard_coe_finset,
    List.toFinset_card_of_nodup (hl.nodup.filter _)]

theorem finite_crates (calls : List IndexOp) : {key | IsCrate key calls}.Finite := by
  refine (calls.map IndexOp.key).toFinset.finite_toSet.subset fun key hkey => ?_
  obtain ⟨p, ck, hp, rfl⟩ := isCrate_iff.mp hkey
  rw [Finset.mem_coe, List.mem_toFinset]
  exact List.mem_map.mpr ⟨_, hp, rfl⟩

/-- The count is of the crates with the query in their name iff it strays nowhere. -/
theorem total_eq_iff (calls : List IndexOp) (queryString : String) :
    {key | IsCrate key calls ∧
        (containsText queryString key = true ∨ Strays queryString key)}.ncard =
      {key | IsCrate key calls ∧ containsText queryString key = true}.ncard ↔
    ∀ key, IsCrate key calls → ¬ Strays queryString key := by
  constructor
  · intro hcard key hkey hs
    have hsub : {key | IsCrate key calls ∧ containsText queryString key = true} ⊆
        {key | IsCrate key calls ∧
          (containsText queryString key = true ∨ Strays queryString key)} :=
      fun key h => ⟨h.1, Or.inl h.2⟩
    have heq := Set.eq_of_subset_of_ncard_le hsub hcard.le
      ((finite_crates calls).subset fun key h => h.1)
    have hmem : key ∈ {key | IsCrate key calls ∧ containsText queryString key = true} := by
      rw [heq]
      exact ⟨hkey, Or.inr hs⟩
    exact Bool.false_ne_true (hs.1.symm.trans hmem.2)
  · intro hno
    congr 1
    ext key
    exact and_congr_right fun hkey => or_iff_left (hno key hkey)

variable (times fails) in
/-- As many results as keys if all their files are read. -/
theorem Records.length_results (h : Records L files calls) {ks : List String}
    (hlive : ∀ k ∈ ks, files k ≠ none) :
    ((ks.map (fetch L (pullFrom times fails files))).filterMap searchEntry).length = ks.length ↔
      ∀ k ∈ ks, fails k = false := by
  rw [← List.length_map fun e => keyPath (toAsciiLowercase e.name), h.paths_of_results ks hlive,
    List.length_filter_eq_length_iff]
  simp only [Bool.not_eq_true']

/-- No crate occurs twice. -/
theorem Records.nodup_results (h : Records L files calls) {ks : List String}
    (hlive : ∀ k ∈ ks, files k ≠ none) (hn : ks.Nodup) :
    (((ks.map (fetch L (pullFrom times fails files))).filterMap searchEntry).map
      fun e => toAsciiLowercase e.name).Nodup := by
  apply List.Nodup.of_map keyPath
  rw [List.map_map, Function.comp_def, h.paths_of_results ks hlive]
  exact hn.filter _

variable (times fails) in
/-- **Exactly when a search finds crates by name**: if the query strays into the directories of no
crate and the files to read can be read. -/
theorem Records.search_iff (h : Records L files calls) (hl : Lists files keys)
    (listPrefix : String → Except StorageError (List String))
    (hkeys : listPrefix "index/" = .ok keys) {completion : List String → List String}
    (hcompletion : ∀ ks, (completion ks).Perm ks) (queryString : String) (limit : ℕ) :
    ∃ r, search L completion listPrefix (pullFrom times fails files) queryString limit = .ok r ∧
      (FindsByName {key | IsCrate key calls} queryString limit r ↔
        (∀ key, IsCrate key calls → ¬ Strays queryString key) ∧
        ∀ k ∈ (keys.filter (containsText queryString)).take (min limit 100), fails k = false) := by
  have hperm := hcompletion ((keys.filter (containsText queryString)).take (min limit 100))
  have hmatches : ∀ k ∈ completion ((keys.filter (containsText queryString)).take (min limit 100)),
      k ∈ keys ∧ containsText queryString k = true := fun k hk =>
    List.mem_filter.mp (List.mem_of_mem_take (hperm.mem_iff.mp hk))
  have hlive : ∀ k ∈ completion ((keys.filter (containsText queryString)).take (min limit 100)),
      files k ≠ none := fun k hk => (hl.mem k).mp (hmatches k hk).1
  have hlength := h.length_results times fails hlive
  have hread : (∀ k ∈ completion ((keys.filter (containsText queryString)).take (min limit 100)),
      fails k = false) ↔
      ∀ k ∈ (keys.filter (containsText queryString)).take (min limit 100), fails k = false := by
    simp only [hperm.mem_iff]
  rw [hread, hperm.length_eq, List.length_take] at hlength
  refine ⟨⟨_, _⟩, by unfold search; rw [hkeys], ?_⟩
  rw [← total_eq_iff, ← h.card_matches hl, ← hlength]
  constructor
  · intro hf
    exact ⟨hf.total, hf.length⟩
  · rintro ⟨htotal, hlen⟩
    have hno := (total_eq_iff calls queryString).mp
      ((h.card_matches hl queryString).symm.trans htotal)
    refine ⟨fun e he => ?_, htotal, hlen, ?_⟩
    · obtain ⟨hkey, hk⟩ := h.of_mem_results hlive he
      have hc := (contains_keyPath (h.allowed _ hkey)).mp (hmatches _ hk).2
      exact ⟨hkey, hc.resolve_right (hno _ hkey)⟩
    · exact h.nodup_results hlive (hperm.nodup_iff.mpr
        ((hl.nodup.filter _).sublist (List.take_sublist _ _)))

end Search

/-! ## In every reachable index -/

section Reachable

variable {ι : Type} [DecidableEq ι]

/-- **Exactly when a search of the index finds crates by name.** In every reachable index, over
every listing of its files, every query and limit, and every order of the tasks, a search returns
crates with the query in their name, up to the limits, and counts all of them iff the query strays
into the directories of no crate and the files that it reads can be read. -/
theorem search_finds_by_name_iff (L : Libs) (ops : ι → IndexOp) (labels : List (Label ι))
    (s : State ι) (hs : Run.exec (step L ops) (initial fun _ => none) labels = some s)
    (times : String → Option ℤ) (fails : String → Bool) (keys : List String)
    (hl : Lists s.files keys) (listPrefix : String → Except StorageError (List String))
    (hkeys : listPrefix "index/" = .ok keys) (completion : List String → List String)
    (hcompletion : ∀ ks, (completion ks).Perm ks) (queryString : String) (limit : ℕ) :
    ∃ r, search L completion listPrefix (pullFrom times fails s.files) queryString limit = .ok r ∧
      (FindsByName {key | IsCrate key (effective ops labels)} queryString limit r ↔
        (∀ key, IsCrate key (effective ops labels) → ¬ Strays queryString key) ∧
        ∀ k ∈ (keys.filter (containsText queryString)).take (min limit 100), fails k = false) :=
  (records_exec hs).search_iff times fails hl listPrefix hkeys hcompletion queryString limit

/-- `foo` and `Fool` are published at once. -/
def fooAndFool : Bool → IndexOp
  | true => .publish foo (abcHash [])
  | false => .publish { foo with name := "Fool" } (abcHash [])

def bothDone : List (Label Bool) :=
  [.start true, .start false, .acquire true, .acquire false, .pull false false, .pull true false,
    .endStep true (.ok ()), .endStep false (.ok ()), .put false false, .put true false]

/-- Their index, and a listing of it. -/
theorem exists_fooAndFool : ∃ s,
    Run.exec (step Libs.canonical fooAndFool) (initial fun _ => none) bothDone = some s ∧
    Lists s.files ["index/3/f/foo", "index/fo/ol/fool"] ∧
    ∀ key, IsCrate key (effective fooAndFool bothDone) ↔ key = "foo" ∨ key = "fool" := by
  have hdone : (Run.exec (step Libs.canonical fooAndFool) (initial fun _ => none)
      bothDone).isSome = true := by decide +kernel
  have hcrate : ∀ key, IsCrate key (effective fooAndFool bothDone) ↔
      key = "foo" ∨ key = "fool" := by
    intro key
    have hcalls : effective fooAndFool bothDone = [fooAndFool false, fooAndFool true] := rfl
    rw [hcalls, isCrate_iff]
    simp only [List.mem_pair, fooAndFool, IndexOp.publish.injEq]
    constructor
    · rintro ⟨p, ck, ⟨rfl, -⟩ | ⟨rfl, -⟩, rfl⟩
      · exact Or.inr (by decide)
      · exact Or.inl (by decide)
    · rintro (rfl | rfl)
      · exact ⟨_, _, Or.inr ⟨rfl, rfl⟩, by decide⟩
      · exact ⟨_, _, Or.inl ⟨rfl, rfl⟩, by decide⟩
  obtain ⟨s, hs⟩ := Option.isSome_iff_exists.mp hdone
  refine ⟨s, hs, ⟨by decide, fun k => ?_⟩, hcrate⟩
  have hfoo : keyPath "foo" = "index/3/f/foo" := by decide
  have hfool : keyPath "fool" = "index/fo/ol/fool" := by decide
  rw [(records_exec hs).live_iff, List.mem_pair]
  simp only [hcrate, or_and_right, exists_or, exists_eq_left, hfoo, hfool, eq_comm]

/-- A search for `oo` counts both, and with a limit of one it returns one of them. -/
theorem search_fooAndFool : ∃ s,
    Run.exec (step Libs.canonical fooAndFool) (initial fun _ => none) bothDone = some s ∧
    ∃ r, search Libs.canonical List.reverse
        (fun _ => .ok ["index/3/f/foo", "index/fo/ol/fool"])
        (pullFrom (fun _ => none) (fun _ => false) s.files) "oo" 1 = .ok r ∧
      r.total = 2 ∧
      FindsByName {key | IsCrate key (effective fooAndFool bothDone)} "oo" 1 r := by
  obtain ⟨s, hs, hl, hcrate⟩ := exists_fooAndFool
  obtain ⟨r, hr, hiff⟩ := search_finds_by_name_iff Libs.canonical fooAndFool bothDone s hs
    (fun _ => none) (fun _ => false) _ hl
    (fun _ => .ok ["index/3/f/foo", "index/fo/ol/fool"]) rfl List.reverse List.reverse_perm "oo" 1
  refine ⟨s, hs, r, hr, ?_, hiff.mpr ⟨fun key hkey => ?_, fun _ _ => rfl⟩⟩
  · cases hr
    exact (by decide :
      (["index/3/f/foo", "index/fo/ol/fool"].filter (containsText "oo")).length = 2)
  · rcases (hcrate key).mp hkey with rfl | rfl <;> decide

/-- The index of `foo`, and its listing. -/
theorem exists_foo : ∃ s, Run.exec (step Libs.canonical twice) (initial fun _ => none) firstDone =
      some s ∧ Lists s.files ["index/3/f/foo"] ∧
    ∀ key, IsCrate key (effective twice firstDone) ↔ key = "foo" := by
  have hdone : (Run.exec (step Libs.canonical twice) (initial fun _ => none) firstDone).isSome =
      true := by decide +kernel
  have hcrate : ∀ key, IsCrate key (effective twice firstDone) ↔ key = "foo" := by
    intro key
    rw [show effective twice firstDone = [twice true] by rfl, isCrate_iff]
    simp only [List.mem_singleton, twice, IndexOp.publish.injEq]
    constructor
    · rintro ⟨p, ck, ⟨rfl, -⟩, rfl⟩
      decide
    · rintro rfl
      exact ⟨_, _, ⟨rfl, rfl⟩, by decide⟩
  obtain ⟨s, hs⟩ := Option.isSome_iff_exists.mp hdone
  refine ⟨s, hs, ⟨List.nodup_singleton _, fun k => ?_⟩, hcrate⟩
  have hpath : keyPath "foo" = "index/3/f/foo" := by decide
  rw [(records_exec hs).live_iff, List.mem_singleton]
  simp only [hcrate, exists_eq_left, hpath, eq_comm]

/-- A search for `index` finds `foo` too. -/
theorem search_index : ∃ s, Run.exec (step Libs.canonical twice) (initial fun _ => none) firstDone =
      some s ∧ Lists s.files ["index/3/f/foo"] ∧
    ∃ r, search Libs.canonical id (fun _ => .ok ["index/3/f/foo"])
        (pullFrom (fun _ => none) (fun _ => false) s.files) "index" 10 = .ok r ∧
      r.total = 1 ∧ ¬ FindsByName {key | IsCrate key (effective twice firstDone)} "index" 10 r := by
  obtain ⟨s, hs, hl, hcrate⟩ := exists_foo
  obtain ⟨r, hr, hiff⟩ := (records_exec hs).search_iff (fun _ => none) (fun _ => false) hl
    (fun _ => .ok ["index/3/f/foo"]) rfl (fun ks => List.Perm.refl (id ks)) "index" 10
  refine ⟨s, hs, hl, r, hr, ?_, fun h => ?_⟩
  · cases hr
    exact (by decide : (["index/3/f/foo"].filter (containsText "index")).length = 1)
  · exact (hiff.mp h).1 "foo" ((hcrate "foo").mpr rfl) (by decide)

end Reachable

end FsIndex

end Freighter
