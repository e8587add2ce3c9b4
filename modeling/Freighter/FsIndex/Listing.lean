import Freighter.FsIndex.Search
import Freighter.Types.Precedence

/-!
# What a listing of the filesystem index says

* `Faithful`: an entry of a listing is that of its crate.
* `convert_faithful`: so is what a file is converted to; `fetched`: one after the other.
* **`list_faithful`**: in every reachable index, if the reads succeed, a listing has every crate
  once, with its versions from the newest and what its last publish said of it.
-/

namespace Freighter

namespace FsIndex

/-! ## The entries of a listing -/

/-- The versions are those of the file, and the rest is from the last publish. -/
structure Faithful [LinearOrder Version] (L : Libs) (files : Files) (calls : List IndexOp)
    (key : String) (e : ListAllCrateEntry) : Prop where
  versions : ∃ c, contentsOf L files (keyPath key) = some c ∧
    e.versions.Perm (c.1.map CrateVersion.vers)
  descending : e.versions.Pairwise (· > ·)
  publish : ∃ p ck, (releases key calls).getLast? = some (p, ck) ∧ e.name = p.name ∧
    e.description = p.description.getD "" ∧ e.homepage = p.homepage ∧
    e.repository = p.repository ∧ e.documentation = p.documentation ∧ e.keywords = p.keywords ∧
    e.categories = p.categories

section Entries

variable [LinearOrder Version] {L : Libs} {files : Files} {calls : List IndexOp} {key : String}
  {e : ListAllCrateEntry}

theorem Faithful.name_eq (h : Faithful L files calls key e) : toAsciiLowercase e.name = key := by
  obtain ⟨p, ck, hlast, hname, -⟩ := h.publish
  rw [hname, key_of_last hlast]

/-- Distinct versions are sorted strictly. -/
theorem pairwise_sorted {entries : List CrateVersion}
    (hd : (entries.map CrateVersion.vers).Nodup) :
    ((entries.mergeSort fun v w => decide (w.vers ≤ v.vers)).map CrateVersion.vers).Pairwise
      (· > ·) := by
  have hperm := (List.mergeSort_perm entries fun v w => decide (w.vers ≤ v.vers)).map
    CrateVersion.vers
  have hsorted : (entries.mergeSort fun v w => decide (w.vers ≤ v.vers)).Pairwise
      fun v w => decide (w.vers ≤ v.vers) = true := by
    apply List.pairwise_mergeSort
    · intro u v w huv hvw
      exact decide_eq_true ((of_decide_eq_true hvw).trans (of_decide_eq_true huv))
    · intro v w
      simpa using le_total w.vers v.vers
  have hle : ((entries.mergeSort fun v w => decide (w.vers ≤ v.vers)).map
      CrateVersion.vers).Pairwise (· ≥ ·) :=
    List.pairwise_map.mpr (hsorted.imp of_decide_eq_true)
  have hne := List.nodup_iff_pairwise_ne.mp (hperm.nodup_iff.mpr hd)
  exact hle.imp₂ (fun _ _ hge hne => lt_of_le_of_ne hge hne.symm) hne

/-- **What a file is converted to.** -/
theorem convert_faithful (h : Records L files calls) (hd : Distinct L files)
    (hkey : IsCrate key calls) (time : Option ℤ) (now : ℤ) :
    ∃ entries p, contentsOf L files (keyPath key) = some (entries, some p) ∧
      ∃ e, convertPublishToCrateEntry (fun v w => decide (v ≤ w)) now ⟨entries, time⟩ (some p) =
        some e ∧ Faithful L files calls key e := by
  obtain ⟨entries, v, p, ck, hc, -, hlast, -⟩ := h.last hkey
  refine ⟨entries, p, hc, _, rfl, ⟨_, hc, ?_⟩, ?_, ?_⟩
  · exact (List.mergeSort_perm _ _).map _
  · exact pairwise_sorted (hd _ _ hc)
  · exact ⟨p, ck, hlast, rfl, rfl, rfl, rfl, rfl, rfl, rfl⟩

/-- **One entry for each file**, in the order of the tasks. -/
theorem fetched (h : Records L files calls) (hd : Distinct L files) (times : String → Option ℤ)
    (now : ℤ) : ∀ ks : List String, (∀ k ∈ ks, files k ≠ none) →
    ∃ es, ((ks.map (fetch L (pullFrom times (fun _ => false) files))).filterMap
        Except.toOption).mapM
          (fun r => convertPublishToCrateEntry (fun v w => decide (v ≤ w)) now r.1 r.2) = some es ∧
      es.map (fun e => keyPath (toAsciiLowercase e.name)) = ks ∧
      ∀ e ∈ es, IsCrate (toAsciiLowercase e.name) calls ∧
        Faithful L files calls (toAsciiLowercase e.name) e
  | [], _ => ⟨[], rfl, rfl, fun _ he => absurd he List.not_mem_nil⟩
  | k :: ks, hlive => by
    obtain ⟨es, hes, hpaths, hall⟩ := fetched h hd times now ks
      fun k' hk' => hlive k' (List.mem_cons_of_mem _ hk')
    obtain ⟨key, hkey, rfl⟩ := h.live_iff.mp (hlive k List.mem_cons_self)
    obtain ⟨entries, p, hc, e, he, hf⟩ := convert_faithful h hd hkey (times (keyPath key)) now
    refine ⟨e :: es, ?_, ?_, fun e' he' => ?_⟩
    · rw [List.map_cons, fetch_of_contentsOf rfl hc]
      change List.mapM _ ((SparseEntries.mk entries (times (keyPath key)), some p) :: _) = _
      rw [List.mapM_cons, he, hes]
      rfl
    · rw [List.map_cons, hpaths, hf.name_eq]
    · rcases List.mem_cons.mp he' with rfl | he'
      · rw [hf.name_eq]
        exact ⟨hkey, hf⟩
      · exact hall e' he'

end Entries

/-! ## The listing -/

section Reachable

variable {ι : Type} [DecidableEq ι]

/-- **A listing is faithful.** In every reachable index, over every listing of its files, with reads
that succeed and in every order of the tasks, `list` returns one entry for each crate: its versions
are those of the file from the newest, and the rest is what its last successful publish said. -/
theorem list_faithful [LinearOrder Version] (L : Libs) (ops : ι → IndexOp)
    (labels : List (Label ι)) (s : State ι)
    (hs : Run.exec (step L ops) (initial fun _ => none) labels = some s)
    (times : String → Option ℤ) (now : ℤ) (keys : List String) (hl : Lists s.files keys)
    (listPrefix : String → Except StorageError (List String))
    (hkeys : listPrefix "index/" = .ok keys) (completion : List String → List String)
    (hcompletion : ∀ ks, (completion ks).Perm ks) :
    ∃ results, list L completion (fun v w => decide (v ≤ w)) now listPrefix
        (pullFrom times (fun _ => false) s.files) = some (.ok results) ∧
      (results.map fun e => toAsciiLowercase e.name).Nodup ∧
      (∀ key, key ∈ results.map (fun e => toAsciiLowercase e.name) ↔
        IsCrate key (effective ops labels)) ∧
      ∀ e ∈ results, Faithful L s.files (effective ops labels) (toAsciiLowercase e.name) e := by
  have hr := records_exec hs
  have hd := exec_distinct hs fun path c hc => by cases hc
  have hperm := hcompletion keys
  obtain ⟨results, hresults, hpaths, hall⟩ := fetched hr hd times now (completion keys)
    fun k hk => (hl.mem k).mp (hperm.mem_iff.mp hk)
  refine ⟨results, ?_, ?_, fun key => ?_, fun e he => (hall e he).2⟩
  · unfold list getLatestCratePublishes
    rw [hkeys]
    simp only [hresults, Option.map_some]
  · apply List.Nodup.of_map keyPath
    rw [List.map_map, Function.comp_def, hpaths]
    exact hperm.nodup_iff.mpr hl.nodup
  · constructor
    · intro hm
      obtain ⟨e, he, rfl⟩ := List.mem_map.mp hm
      exact (hall e he).1
    · intro hkey
      -- its file is listed, so there is an entry for it
      have hk : keyPath key ∈ completion keys :=
        hperm.mem_iff.mpr ((hl.mem _).mpr (hr.live_iff.mpr ⟨key, hkey, rfl⟩))
      rw [← hpaths] at hk
      obtain ⟨e, he, hpath⟩ := List.mem_map.mp hk
      rw [← hr.key_eq (hall e he).1 (hr.allowed key hkey) hpath]
      exact List.mem_map_of_mem he

/-- A listing of the index of `foo` and `Fool`, with the tasks in another order. -/
theorem list_fooAndFool : letI : LinearOrder Version := precedence
    ∃ s, Run.exec (step Libs.canonical fooAndFool) (initial fun _ => none) bothDone = some s ∧
      ∃ results, list Libs.canonical List.reverse (fun v w => decide (v ≤ w)) 0
          (fun _ => .ok ["index/3/f/foo", "index/fo/ol/fool"])
          (pullFrom (fun _ => none) (fun _ => false) s.files) = some (.ok results) ∧
        (results.map fun e => toAsciiLowercase e.name).Nodup ∧
        ∀ key, key ∈ results.map (fun e => toAsciiLowercase e.name) ↔
          key = "foo" ∨ key = "fool" := by
  let _ : LinearOrder Version := precedence
  obtain ⟨s, hs, hl, hcrate⟩ := exists_fooAndFool
  obtain ⟨results, hresults, hnodup, hmem, -⟩ := list_faithful Libs.canonical fooAndFool bothDone s
    hs (fun _ => none) 0 _ hl (fun _ => .ok ["index/3/f/foo", "index/fo/ol/fool"]) rfl
    List.reverse List.reverse_perm
  exact ⟨s, hs, results, hresults, hnodup, fun key => (hmem key).trans (hcrate key)⟩

end Reachable

end FsIndex

end Freighter
