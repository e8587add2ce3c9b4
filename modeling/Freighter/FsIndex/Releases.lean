import Freighter.FsIndex.History

/-!
# The releases that the files record

A file has an entry for each release of its crate, in the order of the publishes that took effect,
and the request of the last of them.

* `releases`: the publishes of a crate among the calls that took effect;
* `Records`: the files have these releases and nothing else; **`records_effect`**: a call that takes
  effect keeps this up;
* **`records_exec`**: so the files of every reachable state record the publishes that succeeded.
-/

namespace Freighter

namespace FsIndex

/-! ## Histories -/

/-- The publishes of the crate `key` in a history of calls that took effect. -/
def releases (key : String) (calls : List IndexOp) : List (Publish × Checksum) :=
  calls.filterMap fun
    | .publish p ck => if toAsciiLowercase p.name = key then some (p, ck) else none
    | _ => none

/-- The crate `key` has been published. -/
def IsCrate (key : String) (calls : List IndexOp) : Prop := releases key calls ≠ []

instance (key : String) (calls : List IndexOp) : Decidable (IsCrate key calls) :=
  inferInstanceAs (Decidable (releases key calls ≠ []))

section Releases

variable {key : String} {calls : List IndexOp} {p : Publish} {ck : Checksum} {op : IndexOp}

theorem releases_concat (key : String) (calls : List IndexOp) (op : IndexOp) :
    releases key (calls ++ [op]) = releases key calls ++ releases key [op] :=
  List.filterMap_append

theorem releases_publish_self (h : toAsciiLowercase p.name = key) :
    releases key [.publish p ck] = [(p, ck)] := by
  simp [releases, h]

theorem releases_of_ne (h : op.key ≠ key) : releases key [op] = [] := by
  cases op with
  | publish p ck =>
    have hne : toAsciiLowercase p.name ≠ key := h
    simp [releases, hne]
  | _ => rfl

theorem mem_releases : (p, ck) ∈ releases key calls ↔
    .publish p ck ∈ calls ∧ toAsciiLowercase p.name = key := by
  unfold releases
  rw [List.mem_filterMap]
  constructor
  · rintro ⟨op, hop, h⟩
    cases op with
    | publish q ck' =>
      simp only at h
      split_ifs at h with hkey
      cases h
      exact ⟨hop, hkey⟩
    | _ => cases h
  · rintro ⟨hop, hkey⟩
    exact ⟨_, hop, if_pos hkey⟩

theorem isCrate_iff : IsCrate key calls ↔
    ∃ p ck, .publish p ck ∈ calls ∧ toAsciiLowercase p.name = key := by
  constructor
  · intro h
    obtain ⟨⟨p, ck⟩, hr⟩ := List.exists_mem_of_ne_nil _ h
    exact ⟨p, ck, mem_releases.mp hr⟩
  · rintro ⟨p, ck, h⟩
    exact List.ne_nil_of_mem (mem_releases.mpr h)

end Releases

/-! ## What the files record -/

/-- The files are those of the crates that were published, each with an entry for each release, up
to its flag, and with the request of the last one. -/
structure Records (L : Libs) (files : Files) (calls : List IndexOp) : Prop where
  paths : ∀ path, files path ≠ none → ∃ key, IsCrate key calls ∧ keyPath key = path
  allowed : ∀ key, IsCrate key calls → crateMetaFileRelPath key = some (keyPath key)
  file : ∀ key, IsCrate key calls → ∃ entries,
    contentsOf L files (keyPath key) =
      some (entries, (releases key calls).getLast?.map Prod.fst) ∧
    entries.map unflagged = (releases key calls).map fun r => release r.1 r.2

section Records

variable {L : Libs} {files files' : Files} {calls : List IndexOp} {op : IndexOp}
  {key key' path : String}

theorem records_empty (L : Libs) : Records L (fun _ => none) [] where
  paths _ h := absurd rfl h
  allowed _ h := absurd rfl h
  file _ h := absurd rfl h

theorem contentsOf_of_absent (h : files path = none) : contentsOf L files path = none := by
  unfold contentsOf
  rw [h]
  rfl

/-- Two crates do not share a file. -/
theorem Records.key_eq (h : Records L files calls) (hkey : IsCrate key calls)
    (hkey' : crateMetaFileRelPath key' = some (keyPath key')) (hpath : keyPath key = keyPath key') :
    key = key' := by
  have hallowed := h.allowed key hkey
  rw [hpath] at hallowed
  exact crateMetaFileRelPath_inj hallowed hkey'

/-- **The files are those of the crates.** -/
theorem Records.live_iff (h : Records L files calls) :
    files path ≠ none ↔ ∃ key, IsCrate key calls ∧ keyPath key = path := by
  refine ⟨h.paths path, ?_⟩
  rintro ⟨key, hkey, rfl⟩ hnone
  obtain ⟨entries, hc, -⟩ := h.file key hkey
  rw [contentsOf_of_absent hnone] at hc
  cases hc

/-- What a call finds in its file: the releases so far. -/
theorem Records.of_hasEntries (h : Records L files calls)
    (hkey : crateMetaFileRelPath key = some (keyPath key)) {entries : List CrateVersion}
    (he : HasEntries L files (keyPath key) entries) :
    entries.map unflagged = (releases key calls).map fun r => release r.1 r.2 := by
  by_cases hcrate : IsCrate key calls
  · obtain ⟨entries', hc, hmap⟩ := h.file key hcrate
    rw [← hmap, ← contentsOf_of_hasEntries he hc]
  · have habsent : files (keyPath key) = none := by
      by_contra hlive
      obtain ⟨key', hcrate', hpath⟩ := h.paths _ hlive
      rw [h.key_eq hcrate' hkey hpath] at hcrate'
      exact hcrate hcrate'
    rw [entries_of_absent he habsent, not_ne_iff.mp hcrate]
    rfl

/-- A crate whose file a call leaves alone. -/
theorem Records.frame (h : Records L files calls) (hkey : op.key ≠ key)
    (hop : crateMetaFileRelPath op.key = some op.relPath)
    (hframe : ∀ path, path ≠ op.relPath → files' path = files path)
    (hcrate : IsCrate key (calls ++ [op])) :
    IsCrate key calls ∧ crateMetaFileRelPath key = some (keyPath key) ∧
      releases key (calls ++ [op]) = releases key calls ∧
      contentsOf L files' (keyPath key) = contentsOf L files (keyPath key) := by
  have hsame : releases key (calls ++ [op]) = releases key calls := by
    rw [releases_concat, releases_of_ne hkey, List.append_nil]
  have hbefore : IsCrate key calls := by
    unfold IsCrate at hcrate ⊢
    rwa [hsame] at hcrate
  refine ⟨hbefore, h.allowed key hbefore, hsame, contentsOf_congr (hframe _ fun hpath => ?_)⟩
  exact hkey (h.key_eq hbefore hop hpath).symm

/-- The file of the crate has its releases. -/
def HasReleases (L : Libs) (files : Files) (calls : List IndexOp) (key : String) : Prop :=
  ∃ entries, contentsOf L files (keyPath key) =
      some (entries, (releases key calls).getLast?.map Prod.fst) ∧
    entries.map unflagged = (releases key calls).map fun r => release r.1 r.2

/-- A publish adds a release to its file. -/
theorem Records.publish {p : Publish} {ck : Checksum} (h : Records L files calls)
    (hop : crateMetaFileRelPath (toAsciiLowercase p.name) =
      some (keyPath (toAsciiLowercase p.name)))
    (he : Effect L files files' (.publish p ck)) :
    IsCrate (toAsciiLowercase p.name) (calls ++ [.publish p ck]) ∧
      HasReleases L files' (calls ++ [.publish p ck]) (toAsciiLowercase p.name) := by
  obtain ⟨-, entries, hentries, -, hafter⟩ := he
  unfold IsCrate HasReleases
  rw [releases_concat, releases_publish_self rfl]
  refine ⟨by simp, entries ++ [release p ck], ?_, ?_⟩
  · rw [List.getLast?_concat]
    exact hafter
  · rw [List.map_append, List.map_append, h.of_hasEntries hop hentries]
    rfl

/-- A yank changes a flag in the file of a crate. -/
theorem Records.yank {name : String} {version : Version} {flag : Bool} (h : Records L files calls)
    (hop : crateMetaFileRelPath (toAsciiLowercase name) = some (keyPath (toAsciiLowercase name)))
    (he : Effect L files files' (.yank name version flag)) :
    IsCrate (toAsciiLowercase name) (calls ++ [.yank name version flag]) ∧
      HasReleases L files' (calls ++ [.yank name version flag]) (toAsciiLowercase name) := by
  obtain ⟨-, older, v, newer, q, hbefore, -, -, hafter⟩ := he
  have hsame : releases (toAsciiLowercase name) (calls ++ [.yank name version flag]) =
      releases (toAsciiLowercase name) calls := by
    rw [releases_concat]
    exact List.append_nil _
  have hlive : files (keyPath (toAsciiLowercase name)) ≠ none := by
    intro hnone
    have hnothing : contentsOf L files (keyPath (toAsciiLowercase name)) = none :=
      contentsOf_of_absent hnone
    cases hnothing.symm.trans hbefore
  obtain ⟨key, hcrate, hpath⟩ := h.live_iff.mp hlive
  obtain rfl := h.key_eq hcrate hop hpath
  obtain ⟨entries, hc, hmap⟩ := h.file _ hcrate
  cases hbefore.symm.trans hc
  unfold IsCrate HasReleases
  rw [hsame]
  refine ⟨hcrate, _, hafter, ?_⟩
  rw [← hmap, List.map_append, List.map_append]
  rfl

/-- **A call that takes effect is recorded.** -/
theorem records_effect (h : Records L files calls) {m : CrateMetaPath}
    (hm : accessCrate op.crateName = .ok m) (he : Effect L files files' op) :
    Records L files' (calls ++ [op]) := by
  obtain ⟨hk, hr⟩ := IndexOp.accessCrate_eq hm
  have hop : crateMetaFileRelPath op.key = some op.relPath := by
    rw [← hk, ← hr]
    exact (accessCrate_eq_ok.mp hm).2
  have hframe := he.1
  obtain ⟨hcrate, hfile⟩ : IsCrate op.key (calls ++ [op]) ∧
      HasReleases L files' (calls ++ [op]) op.key := by
    cases op with
    | publish p ck => exact h.publish hop he
    | yank name version flag => exact h.yank hop he
    | confirm name version => exact he.2.elim
  refine ⟨fun path hlive => ?_, fun key hkey => ?_, fun key hkey => ?_⟩
  · by_cases hpath : path = op.relPath
    · exact ⟨op.key, hcrate, hpath.symm⟩
    · rw [hframe path hpath] at hlive
      obtain ⟨key, hkey, hpath'⟩ := h.paths path hlive
      refine ⟨key, ?_, hpath'⟩
      unfold IsCrate at hkey ⊢
      rw [releases_concat]
      exact List.append_ne_nil_of_left_ne_nil hkey _
  · by_cases hne : op.key = key
    · rw [← hne]
      exact hop
    · exact (h.frame hne hop hframe hkey).2.1
  · by_cases hne : op.key = key
    · rw [← hne]
      exact hfile
    · obtain ⟨hbefore, -, hsame, hc⟩ := h.frame hne hop hframe hkey
      rw [hsame, hc]
      exact h.file key hbefore

/-- The last entry of a file is of the last release. -/
theorem Records.last (h : Records L files calls) (hkey : IsCrate key calls) :
    ∃ entries v p ck, contentsOf L files (keyPath key) = some (entries, some p) ∧
      entries.getLast? = some v ∧ (releases key calls).getLast? = some (p, ck) ∧
      unflagged v = release p ck := by
  obtain ⟨entries, hc, hmap⟩ := h.file key hkey
  obtain ⟨⟨p, ck⟩, hlast⟩ := Option.isSome_iff_exists.mp (List.getLast?_isSome.mpr hkey)
  have hv := congrArg List.getLast? hmap
  rw [List.getLast?_map, List.getLast?_map, hlast, Option.map_some] at hv
  obtain ⟨v, hv, hu⟩ := Option.map_eq_some_iff.mp hv
  rw [hlast, Option.map_some] at hc
  exact ⟨entries, v, p, ck, hc, hv, hlast, hu⟩

end Records

/-! ## Reachable files -/

section Reachable

variable {L : Libs} {ι : Type} [DecidableEq ι] {ops : ι → IndexOp} {s : State ι}
  {labels : List (Label ι)}

/-- The calls of a run that took effect, in the order of their puts. -/
def effective (ops : ι → IndexOp) (labels : List (Label ι)) : List IndexOp :=
  (writers labels).map ops

/-- **The files of a reachable state record the publishes that succeeded.** -/
theorem records_exec (h : Run.exec (step L ops) (initial fun _ => none) labels = some s) :
    Records L s.files (effective ops labels) := by
  induction labels using List.reverseRecOn generalizing s with
  | nil =>
    cases h
    exact records_empty L
  | append_singleton labels a ih =>
    obtain ⟨t, ht, hs⟩ := Run.exec_concat_eq_some.mp h
    unfold effective
    rw [writers_concat, List.map_append]
    rcases effect_step (exec_inv ht) hs with ⟨hne, hfiles⟩ | ⟨i, rfl, heffect, -, -⟩
    · rw [writers_singleton_of_ne hne, hfiles, List.map_nil, List.append_nil]
      exact ih ht
    · obtain ⟨m, hm⟩ : ∃ m, accessCrate (ops i).crateName = .ok m := by
        cases step_cases hs with
        | @put _ l c hp => exact (exec_inv ht).allowed i (l, (ops i).mode) (by rw [hp]; rfl)
      exact records_effect (ih ht) hm heffect

end Reachable

end FsIndex

end Freighter
