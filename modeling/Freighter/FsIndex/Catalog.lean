import Freighter.FsIndex.History
import Freighter.Index.Catalog

/-!
# The filesystem index as a catalog

* `known`: what a file knows of a version; `Shows`: the files know what the catalog does;
* **`run_shows`**: on allowed names, a call that nothing disturbs answers as the catalog does and
  leaves files that show the next one.
-/

namespace Freighter

namespace FsIndex

/-- A lowercase name that `crate_meta_file_rel_path` accepts. -/
def Allowed (name : String) : Prop :=
  toAsciiLowercase name = name ∧ ∃ path, crateMetaFileRelPath name = some path

/-- How the filesystem index refuses. -/
def refusals : Catalog.Refusals := ⟨alreadyExists, .notFound⟩

/-- What is known of a version by the last of its entries. -/
def known (entries : List CrateVersion) (version : Version) : Option CrateVersionExists :=
  (entries.reverse.find? (·.vers = version)).map fun e => ⟨e.yanked, e.cksum⟩

section Known

variable {entries older newer : List CrateVersion} {version v : Version} {e : CrateVersion}

theorem known_nil : known [] version = none := rfl

theorem known_eq_none : known entries version = none ↔ ∀ e ∈ entries, e.vers ≠ version := by
  simp [known]

theorem known_ne_none : known entries version ≠ none ↔ ∃ e ∈ entries, e.vers = version := by
  rw [ne_eq, known_eq_none]
  simp

variable (older newer) in
/-- The last entry of a version decides. -/
theorem known_middle (h : ∀ u ∈ newer, u.vers ≠ e.vers) :
    known (older ++ e :: newer) v =
      if v = e.vers then some ⟨e.yanked, e.cksum⟩ else known (older ++ newer) v := by
  unfold known
  rw [List.reverse_append, List.reverse_cons, List.append_assoc, List.find?_append,
    List.singleton_append, List.reverse_append, List.find?_append]
  by_cases hv : v = e.vers
  · have hnone : newer.reverse.find? (·.vers = v) = none := by
      rw [List.find?_eq_none]
      intro u hu
      simpa [hv] using h u (List.mem_reverse.mp hu)
    rw [hnone, if_pos hv, List.find?_cons_of_pos (by simpa using hv.symm)]
    rfl
  · rw [if_neg hv, List.find?_cons_of_neg (by simpa using Ne.symm hv)]

theorem known_concat : known (entries ++ [e]) v =
    if v = e.vers then some ⟨e.yanked, e.cksum⟩ else known entries v := by
  have h := known_middle entries [] (e := e) (v := v) (by simp)
  rwa [List.append_nil] at h

end Known

section Shows

variable (L : Libs)

/-- The files know of the versions of allowed crates what the catalog does. -/
def Shows (files : Files) (c : Catalog) : Prop :=
  ∀ name, Allowed name →
    ∃ entries, HasEntries L files (keyPath name) entries ∧ ∀ v, known entries v = c name v

variable {L} {files files' : Files} {c c' : Catalog} {name : String} {version : Version}
  {path : String} {entries : List CrateVersion}

theorem accessCrate_of_allowed (h : Allowed name) :
    accessCrate name = .ok ⟨name, keyPath name⟩ := by
  obtain ⟨hlower, path, hpath⟩ := h
  unfold accessCrate keyPath
  rw [hlower, hpath]
  rfl

theorem keyPath_inj {n : String} (ha : Allowed name) (hn : Allowed n)
    (h : keyPath n = keyPath name) : n = name :=
  congrArg CrateMetaPath.key
    (relPath_inj (accessCrate_of_allowed hn) (accessCrate_of_allowed ha) h)

theorem shows_empty : Shows L (fun _ => none) Catalog.empty :=
  fun _ _ => ⟨[], Or.inl ⟨rfl, rfl⟩, fun _ => known_nil⟩

/-- A call writes the file of its crate only. -/
theorem Shows.put (h : Shows L files c) (ha : Allowed name)
    (hframe : ∀ path, path ≠ keyPath name → files' path = files path)
    (hentries : HasEntries L files' (keyPath name) entries)
    {e : CrateVersionExists}
    (hknown : ∀ v, known entries v = if v = version then some e else c name v) :
    Shows L files' (c.set name version e) := by
  intro n hn
  by_cases hname : n = name
  · subst hname
    exact ⟨entries, hentries, fun v => (hknown v).trans Catalog.set_name.symm⟩
  · obtain ⟨entries', hentries', hknown'⟩ := h n hn
    have hfile := hframe _ fun e => hname (keyPath_inj ha hn e)
    refine ⟨entries', ?_, fun v => (hknown' v).trans (Catalog.set_of_ne fun hc => hname hc.1).symm⟩
    unfold HasEntries
    rw [hfile, contentsOf_congr hfile]
    exact hentries'

/-! ## What a file answers -/

theorem lacks_of_known (h : HasEntries L files path entries)
    (hnone : known entries version = none) :
    Lacks L (pullFile false files path) version := by
  rcases h with ⟨hfile, -⟩ | ⟨q, hq⟩
  · left
    simp [pullFile, hfile]
  · right
    obtain ⟨data, hdata, hc⟩ := contentsOf_eq_some.mp hq
    exact ⟨data, _, by simp [pullFile, hdata], hc, known_eq_none.mp hnone⟩

theorem holds_of_known (h : HasEntries L files path entries)
    (hsome : known entries version ≠ none) :
    Holds L (pullFile false files path) version := by
  rcases h with ⟨-, rfl⟩ | ⟨q, hq⟩
  · exact absurd known_nil hsome
  · obtain ⟨data, hdata, hc⟩ := contentsOf_eq_some.mp hq
    exact ⟨data, _, by simp [pullFile, hdata], hc, known_ne_none.mp hsome⟩

theorem existsAnswer_of_hasEntries (h : HasEntries L files path entries) :
    existsAnswer L version (pullFile false files path) =
      match known entries version with
      | none => .error .notFound
      | some e => .ok e := by
  rcases h with ⟨hfile, rfl⟩ | ⟨q, hq⟩
  · simp [existsAnswer, pullFile, hfile, deserialized, known_nil, StorageError.toIndexError]
  · unfold existsAnswer known
    rw [deserialized_ok.mpr hq]
    simp only
    cases entries.reverse.find? (·.vers = version) <;> rfl

theorem yankLast_eq_none {flag : Bool} (h : ∀ e ∈ entries, e.vers ≠ version) :
    yankLast version flag entries = none := by
  induction entries with
  | nil => rfl
  | cons e entries ih =>
    rw [List.forall_mem_cons] at h
    simp only [yankLast, ih h.2, if_neg h.1]

theorem yankContents_missing (flag : Bool) (h : HasEntries L files path entries)
    (hnone : known entries version = none) :
    yankContents L version flag (pullFile false files path) = .error .notFound := by
  rcases h with ⟨hfile, -⟩ | ⟨q, hq⟩
  · simp [yankContents, pullFile, hfile, deserialized, StorageError.toIndexError]
  · unfold yankContents
    rw [deserialized_ok.mpr hq]
    simp only [yankLast_eq_none (known_eq_none.mp hnone)]

theorem yankContents_found (flag : Bool) (h : HasEntries L files path entries)
    (hsome : known entries version ≠ none) :
    ∃ contents, yankContents L version flag (pullFile false files path) = .ok contents := by
  rcases h with ⟨-, rfl⟩ | ⟨q, hq⟩
  · exact absurd known_nil hsome
  · unfold yankContents
    rw [deserialized_ok.mpr hq]
    cases hy : yankLast version flag entries with
    | none => exact absurd (known_eq_none.mpr (yankLast_none hy)) hsome
    | some entries' => exact ⟨(entries', q), by simp [hy]⟩

theorem hasEntries_unique {entries' : List CrateVersion} (h : HasEntries L files path entries)
    (h' : HasEntries L files path entries') : entries = entries' := by
  rcases h with ⟨hfile, rfl⟩ | ⟨q, hq⟩
  · exact (entries_of_absent h' hfile).symm
  · exact contentsOf_of_hasEntries h' hq

end Shows

/-! ## Calls -/

section Run

variable {L : Libs} {files : Files} {c : Catalog}

/-- A call answers as the catalog does, and leaves files that show the next one. -/
def Follows (L : Libs) (out : Outcome × Files) (next : Outcome × Catalog) : Prop :=
  out.1 = next.1 ∧ Shows L out.2 next.2

theorem run_publish {p : Publish} {ck : Checksum} (h : Shows L files c) (ha : Allowed p.name) :
    Follows L ((IndexOp.publish p ck).run L files) (c.step refusals (.publish p ck)) := by
  obtain ⟨entries, hentries, hknown⟩ := h p.name ha
  have hm := accessCrate_of_allowed ha
  by_cases hnew : c p.name p.vers = none
  · obtain ⟨contents, hcontents⟩ := (publishContents_ok (c := ck)).mpr
      (lacks_of_known hentries ((hknown p.vers).trans hnew))
    have hpath : (IndexOp.publish p ck).relPath = keyPath p.name := congrArg keyPath ha.1
    have hwrites : (IndexOp.publish p ck).Writes L
        (pullFile false files (IndexOp.publish p ck).relPath) contents := by
      rw [hpath]
      exact hcontents
    obtain ⟨hframe, entries', hentries', -, hafter⟩ := effect_of_writes hwrites
    rw [hpath] at hframe hentries' hafter
    have hrun : (IndexOp.publish p ck).run L files = (.ok .done, _) := run_of_writes hm hwrites
    rw [hrun, Catalog.step_publish_new refusals ck hnew, hpath]
    refine ⟨rfl, h.put ha hframe (Or.inr ⟨_, hafter⟩) fun v => ?_⟩
    rw [hasEntries_unique hentries' hentries, known_concat, hknown v]
    rfl
  · have hsome : known entries p.vers ≠ none := by
      rw [hknown]
      exact hnew
    have hrun : publish L {} files p ck (fun _ w => (.ok (), w)) () =
        (.error (alreadyExists p), files, ()) :=
      publish_conflict hm (holds_of_known hentries hsome)
    rw [Catalog.step_publish_known refusals ck hnew]
    simp only [IndexOp.run, hrun]
    exact ⟨rfl, h⟩

theorem run_yank {name : String} {version : Version} {flag : Bool} (h : Shows L files c)
    (ha : Allowed name) :
    Follows L ((IndexOp.yank name version flag).run L files)
      (c.step refusals (.yank name version flag)) := by
  obtain ⟨entries, hentries, hknown⟩ := h name ha
  have hm := accessCrate_of_allowed ha
  cases hc : c name version with
  | none =>
    have hrun := yankContents_missing flag hentries ((hknown version).trans hc)
    rw [Catalog.step_yank_missing refusals flag hc]
    unfold IndexOp.run yankInner
    simp only [hm, hrun]
    exact ⟨rfl, h⟩
  | some e =>
    have hsome : known entries version ≠ none := by
      rw [hknown, hc]
      simp
    obtain ⟨contents, hcontents⟩ := yankContents_found flag hentries hsome
    have hpath : (IndexOp.yank name version flag).relPath = keyPath name := congrArg keyPath ha.1
    have hwrites : (IndexOp.yank name version flag).Writes L
        (pullFile false files (IndexOp.yank name version flag).relPath) contents := by
      rw [hpath]
      exact hcontents
    obtain ⟨hframe, older, u, newer, q, hbefore, rfl, hnewer, hafter⟩ := effect_of_writes hwrites
    rw [hpath] at hframe hbefore hafter
    rw [← contentsOf_of_hasEntries hentries hbefore] at hknown
    have hrun : (IndexOp.yank name u.vers flag).run L files = (.ok .done, _) :=
      run_of_writes hm hwrites
    rw [hrun, Catalog.step_yank_found refusals flag hc, hpath]
    refine ⟨rfl, h.put ha hframe (Or.inr ⟨q, hafter⟩) fun v => ?_⟩
    have hflag := hknown u.vers
    rw [known_middle older newer hnewer, if_pos rfl, hc] at hflag
    cases hflag
    rw [known_middle older newer (e := { u with yanked := flag }) hnewer, ← hknown v,
      known_middle older newer hnewer]
    by_cases hv : v = u.vers
    · rw [if_pos hv, if_pos hv]
    · rw [if_neg hv, if_neg hv, if_neg hv]

/-- **The filesystem index is the catalog**, on allowed names. -/
theorem run_shows {op : IndexOp} (h : Shows L files c) (ha : Allowed op.crateName) :
    Follows L (op.run L files) (c.step refusals op) := by
  cases op with
  | publish p ck => exact run_publish h ha
  | yank name version flag => exact run_yank h ha
  | confirm name version =>
    change Allowed name at ha
    obtain ⟨entries, hentries, hknown⟩ := h name ha
    refine ⟨?_, h⟩
    unfold IndexOp.run confirmExistence
    simp only [accessCrate_of_allowed ha, existsAnswer_of_hasEntries hentries, hknown version,
      Catalog.step, Catalog.answer]
    cases c name version <;> rfl

end Run

end FsIndex

end Freighter
