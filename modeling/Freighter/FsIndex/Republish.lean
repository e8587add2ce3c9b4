import Freighter.FsIndex.History

/-!
# Publishing an index entry again

`From<CrateVersion> for Publish` turns an entry of an index into a publish request, to be sent to
another registry.

* `SameRelease`: two entries agree on what the index carries of a release;
* **`republished_iff`**: the entry comes back iff it links to nothing and `features2` adds nothing.
-/

namespace Freighter

/-- The entries agree but for the flag, the schema version and where a feature is listed. -/
structure SameRelease (cv e : CrateVersion) : Prop where
  name : e.name = cv.name
  vers : e.vers = cv.vers
  links : e.links = cv.links
  deps : e.deps = cv.deps
  features : ∀ name, e.mergedFeatures name = cv.mergedFeatures name

/-- Nothing is in `features2` but empty lists of features that are in `features`. -/
def CrateVersion.AddsNothing (c : CrateVersion) : Prop :=
  ∀ e ∈ c.features2.iter, e.2 = [] ∧ e.1 ∈ c.features

instance (c : CrateVersion) : Decidable c.AddsNothing :=
  inferInstanceAs (Decidable (∀ e ∈ c.features2.iter, e.2 = [] ∧ e.1 ∈ c.features))

theorem CrateVersion.mergedFeatures_of_empty {c : CrateVersion} (h : c.features2 = ∅)
    (name : String) : c.mergedFeatures name = c.features.lookup name := by
  unfold CrateVersion.mergedFeatures
  rw [h, AList.lookup_empty]
  cases c.features.lookup name with
  | none => rfl
  | some values => rfl

/-- **When the merged features are those of `features`.** -/
theorem CrateVersion.mergedFeatures_eq_iff (c : CrateVersion) :
    (∀ name, c.mergedFeatures name = c.features.lookup name) ↔ c.AddsNothing := by
  constructor
  · rintro h ⟨name, more⟩ he
    have hname := h name
    have hmore : c.features2.lookup name = some more := HashMap.mem_iter.mp he
    unfold CrateVersion.mergedFeatures at hname
    rw [hmore] at hname
    cases hvalues : c.features.lookup name with
    | none =>
      rw [hvalues] at hname
      cases hname
    | some values =>
      rw [hvalues] at hname
      refine ⟨?_, HashMap.mem_of_lookup hvalues⟩
      simpa using hname
  · intro h name
    unfold CrateVersion.mergedFeatures
    cases hmore : c.features2.lookup name with
    | none => cases c.features.lookup name <;> rfl
    | some more =>
      obtain ⟨hnil, hmem⟩ := h (name, more) (HashMap.mem_iter.mpr hmore)
      obtain ⟨values, hvalues⟩ := Option.isSome_iff_exists.mp (AList.lookup_isSome.mpr hmem)
      rw [hvalues]
      change some (values ++ more) = some values
      rw [show more = [] from hnil, List.append_nil]

namespace FsIndex

/-- The dependencies are published as they were. -/
theorem release_toPublish_deps (cv : CrateVersion) (ck : Checksum) :
    (release cv.toPublish ck).deps = cv.deps := by
  change (cv.deps.map Dependency.toPublishDependency).map PublishDependency.toDependency = cv.deps
  rw [List.map_map]
  refine (List.map_congr_left fun x _ => ?_).trans (List.map_id _)
  exact Dependency.toDependency_toPublishDependency x

/-- **When the entry of the request is the entry it was made of.** -/
theorem sameRelease_release_iff (cv : CrateVersion) (ck : Checksum) :
    SameRelease cv (release cv.toPublish ck) ↔ cv.links = none ∧ cv.AddsNothing := by
  have hmerged : ∀ name, (release cv.toPublish ck).mergedFeatures name = cv.features.lookup name :=
    CrateVersion.mergedFeatures_of_empty rfl
  rw [← CrateVersion.mergedFeatures_eq_iff]
  constructor
  · intro h
    exact ⟨h.links.symm, fun name => (h.features name).symm.trans (hmerged name)⟩
  · rintro ⟨hlinks, hfeatures⟩
    refine ⟨rfl, rfl, hlinks.symm, release_toPublish_deps cv ck, fun name => ?_⟩
    rw [hmerged, hfeatures]

/-- The last entry of the file is the same release as `cv`. -/
def Republished (L : Libs) (cv : CrateVersion) (files : Files) : Prop :=
  ∃ older e q, contentsOf L files (keyPath (toAsciiLowercase cv.name)) = some (older ++ [e], q) ∧
    SameRelease cv e

section Republished

variable {L : Libs} {io : Io} {files : Files} {cv : CrateVersion} {ω : Type}
  {endStep : Files → ω → Except IndexError Unit × ω} {w : ω}

theorem republished_iff_release
    (h : (publish L io files cv.toPublish cv.cksum endStep w).1 = .ok .noWarnings) :
    Republished L cv (publish L io files cv.toPublish cv.cksum endStep w).2.1 ↔
      SameRelease cv (release cv.toPublish cv.cksum) := by
  rcases publish_effect L io files cv.toPublish cv.cksum endStep w with ⟨⟨e, he⟩, -⟩ | heffect
  · rw [h] at he
    cases he
  obtain ⟨-, entries, -, -, hafter⟩ := heffect
  constructor
  · rintro ⟨older, e, q, hc, hsame⟩
    have heq : older ++ [e] = entries ++ [release cv.toPublish cv.cksum] :=
      congrArg Prod.fst (Option.some.inj (hc.symm.trans hafter))
    obtain ⟨-, hlast⟩ := List.append_inj' heq rfl
    cases hlast
    exact hsame
  · intro hsame
    exact ⟨entries, _, _, hafter, hsame⟩

end Republished

/-- **Republishing keeps everything but `links` and `features2`.** When an entry, made into a
publish request, is published with its checksum, the new entry is the same release iff the entry
links to nothing and its `features2` adds nothing to its `features`. -/
theorem republished_iff (L : Libs) (io : Io) (files : Files) (cv : CrateVersion) {ω : Type}
    (endStep : Files → ω → Except IndexError Unit × ω) (w : ω)
    (h : (publish L io files cv.toPublish cv.cksum endStep w).1 = .ok .noWarnings) :
    Republished L cv (publish L io files cv.toPublish cv.cksum endStep w).2.1 ↔
      cv.links = none ∧ cv.AddsNothing := by
  rw [republished_iff_release h, sameRelease_release_iff]

/-! ## An entry with a renamed dependency -/

/-- An entry of `foo` whose dependency `json` is the package `serde_json`. -/
def fooEntry (links : Option String) (features2 : HashMap String (List String)) : CrateVersion where
  name := "foo"
  vers := Version.new 0 0 0
  deps :=
    [{ name := "json"
       req := VersionReq.caret 1 2 0
       features := []
       optional := false
       defaultFeatures := true
       target := none
       kind := .normal
       registry := none
       package := some "serde_json" }]
  cksum := abcHash []
  features := AList.singleton "std" []
  yanked := false
  links := links
  v := 2
  features2 := features2

theorem publish_fooEntry (links : Option String) (features2 : HashMap String (List String)) :
    (publish Libs.canonical {} (fun _ => none) (fooEntry links features2).toPublish (abcHash [])
      (fun _ (w : Unit) => (.ok (), w)) ()).1 = .ok .noWarnings := by
  have hacc : Accepts Libs.canonical {} (fun _ => none) (fooEntry links features2).toPublish := by
    refine ⟨⟨"foo", "index/3/f/foo"⟩, ?_, Or.inl rfl⟩
    change accessCrate "foo" = _
    decide
  have hok : ∃ r, (publish Libs.canonical {} (fun _ => none) (fooEntry links features2).toPublish
      (abcHash []) (fun _ (w : Unit) => (.ok (), w)) ()).1 = .ok r :=
    publish_ok_iff.mpr ⟨hacc, rfl, rfl⟩
  obtain ⟨⟨⟩, hr⟩ := hok
  exact hr

/-- An entry that links to nothing, whose `features2` has an empty list of a feature. -/
theorem republished_iff_foo : Republished Libs.canonical (fooEntry none (AList.singleton "std" []))
    (publish Libs.canonical {} (fun _ => none) (fooEntry none (AList.singleton "std" [])).toPublish
      (abcHash []) (fun _ (w : Unit) => (.ok (), w)) ()).2.1 :=
  (republished_iff Libs.canonical {} (fun _ => none) (fooEntry none (AList.singleton "std" []))
    (fun _ (w : Unit) => (.ok (), w)) () (publish_fooEntry _ _)).mpr ⟨rfl, by decide⟩

/-- An entry that links to `z`. -/
theorem links_not_republished :
    (publish Libs.canonical {} (fun _ => none) (fooEntry (some "z") ∅).toPublish (abcHash [])
        (fun _ (w : Unit) => (.ok (), w)) ()).1 = .ok .noWarnings ∧
      ¬ Republished Libs.canonical (fooEntry (some "z") ∅)
        (publish Libs.canonical {} (fun _ => none) (fooEntry (some "z") ∅).toPublish (abcHash [])
          (fun _ (w : Unit) => (.ok (), w)) ()).2.1 := by
  refine ⟨publish_fooEntry _ _, ?_⟩
  intro h
  have hlinks := ((republished_iff_release (publish_fooEntry (some "z") ∅)).mp h).links
  exact absurd hlinks (by decide)

end FsIndex

end Freighter
