import Freighter.FsIndex.Machine
import Freighter.Pg.Release

/-!
# The database between calls

* `step`: one call, with what fails during it; `Move`: what it does to the database,
  **`move_step`**;
* `Consistent`: the foreign keys hold and the texts of the rows parse; **`consistent_final`**: so it
  is in every reachable database.
-/

namespace Freighter

namespace PgIndex

open FsIndex (IndexOp Outcome)

/-! ## Calls -/

/-- A call, with what fails during it and what its `end_step` answers. -/
structure Call where
  io : Io
  endStep : Except IndexError Unit
  op : IndexOp

def step (db : Db) (c : Call) : Option Outcome × Db :=
  match c.op with
  | .publish p tarballChecksum =>
    let out := publish c.io db p tarballChecksum (fun w => (c.endStep, w)) ()
    (some (out.1.map fun _ => .done), out.2.1)
  | .yank crateName version flag =>
    let out := yankInner c.io db crateName version flag
    (out.1.map fun r => r.map fun _ => .done, out.2)
  | .confirm crateName version =>
    ((confirmExistence c.io db crateName version).map fun r => r.map .found, db)

/-- What a call does to the database. -/
inductive Move (db : Db) : Db → Prop
  | none : Move db db
  | undone (new : Db) : Move db (db.rollback new)
  | released {p : Publish} {ck : Checksum} {crate versionId : ℕ} {db' : Db}
      (h : Released db p ck crate versionId db') : Move db db'
  | flagged (crateName version : String) (yanked : Bool) :
      Move db (db.setYank crateName version yanked)

section Move

variable {ω : Type} (io : Io) (db : Db) (p : Publish) (ck : Checksum)
  (endStep : ω → Except IndexError Unit × ω) (w : ω)

/-- **`publish` releases the version or is undone.** -/
theorem publish_cases :
    (publish io db p ck endStep w).1 = .ok .noWarnings ∧
        (∃ crate versionId, Released db p ck crate versionId (publish io db p ck endStep w).2.1) ∨
      (∃ e, (publish io db p ck endStep w).1 = .error e) ∧
        ((publish io db p ck endStep w).2.1 = db ∨
          ∃ new, (publish io db p ck endStep w).2.1 = db.rollback new) := by
  unfold publish
  by_cases hstart : (io.fails .connect || io.fails .startTransaction || io.fails .prepare) = true
  · rw [if_pos hstart]
    exact Or.inr ⟨⟨_, rfl⟩, Or.inl rfl⟩
  rw [if_neg hstart]
  cases hr : insertRelease io p ck db with
  | mk r new =>
    cases r with
    | error e => exact Or.inr ⟨⟨e, rfl⟩, Or.inr ⟨new, rfl⟩⟩
    | ok _ =>
      simp only
      cases endStep w with
      | mk r w =>
        cases r with
        | error e => exact Or.inr ⟨⟨_, rfl⟩, Or.inr ⟨new, rfl⟩⟩
        | ok _ =>
          simp only
          by_cases hcommit : io.fails .commit = true
          · rw [if_pos hcommit]
            exact Or.inr ⟨⟨_, rfl⟩, Or.inr ⟨new, rfl⟩⟩
          · rw [if_neg hcommit]
            exact Or.inl ⟨rfl, released_of_insertRelease hr⟩

theorem move_publish : Move db (publish io db p ck endStep w).2.1 := by
  rcases publish_cases io db p ck endStep w with ⟨-, _, _, h⟩ | ⟨-, h | ⟨new, h⟩⟩
  · exact .released h
  · rw [h]
    exact .none
  · rw [h]
    exact .undone new

/-- `yankInner` sets the flag or does nothing. -/
theorem yankInner_cases (crateName : String) (version : Version) (yank : Bool) :
    (yankInner io db crateName version yank).2 = db ∨
      (yankInner io db crateName version yank).2 =
        db.setYank crateName version.display yank := by
  unfold yankInner
  split_ifs
  · exact Or.inl rfl
  · exact Or.inl rfl
  · rcases db.versionRows crateName version.display with _ | ⟨_, _ | _⟩ <;> exact Or.inr rfl

theorem move_yankInner (crateName : String) (version : Version) (yank : Bool) :
    Move db (yankInner io db crateName version yank).2 := by
  rcases yankInner_cases io db crateName version yank with h | h
  · rw [h]
    exact .none
  · rw [h]
    exact .flagged _ _ _

/-- **What a call does.** -/
theorem move_step (c : Call) : Move db (step db c).2 := by
  unfold step
  cases c.op with
  | publish p ck => exact move_publish c.io db p ck _ ()
  | yank crateName version flag => exact move_yankInner c.io db crateName version flag
  | confirm crateName version => exact .none

end Move

/-! ## Consistency -/

/-- The foreign keys hold, versions are of crates of this registry, and texts parse. -/
structure Consistent (db : Db) : Prop where
  labels : db.LabelsLinked
  versions : ∀ v ∈ db.crateVersions.rows, ∃ name, (v.2.crate, name, "") ∈ db.named
  texts : ∀ v ∈ db.crateVersions.rows, ∃ (vers : Version) (ck : Checksum),
    v.2.version = vers.display ∧ v.2.cksum = hexEncode ck
  features : ∀ f ∈ db.features.rows, f.2.crateVersion ∈ db.crateVersions.ids
  dependencies : ∀ d ∈ db.dependencies.rows, d.2.dependent ∈ db.crateVersions.ids ∧
    d.2.dependency ∈ db.crates.ids ∧ ∃ req : VersionReq, d.2.req = req.display

theorem consistent_empty : Consistent Db.empty where
  labels _ _ hr := absurd hr List.not_mem_nil
  versions _ hv := absurd hv List.not_mem_nil
  texts _ hv := absurd hv List.not_mem_nil
  features _ hf := absurd hf List.not_mem_nil
  dependencies _ hd := absurd hd List.not_mem_nil

section Released

variable {db db' : Db} {p : Publish} {ck : Checksum} {crate versionId : ℕ}

theorem Released.ids (h : Released db p ck crate versionId db') :
    db'.crateVersions.ids = db.crateVersions.ids ++ [versionId] := by
  unfold Table.ids
  rw [h.versions, List.map_append]
  rfl

theorem Released.fresh (h : Released db p ck crate versionId db') :
    versionId ∉ db.crateVersions.ids := by
  have hnodup : db'.crateVersions.ids.Nodup := db'.crateVersions.nodup_ids
  rw [h.ids] at hnodup
  exact List.disjoint_singleton.mp (List.disjoint_of_nodup_append hnodup)

theorem Released.versionId_mem (h : Released db p ck crate versionId db') :
    versionId ∈ db'.crateVersions.ids := by
  rw [h.ids]
  exact List.mem_append_right _ (List.mem_singleton_self _)

theorem Released.ids_subset (h : Released db p ck crate versionId db') :
    db.crateVersions.ids ⊆ db'.crateVersions.ids := by
  rw [h.ids]
  exact List.subset_append_left _ _

/-- The new features are those of the new version. -/
theorem feature_of_map {rows : List (ℕ × FeatureRow)} {features : List (String × List String)}
    (h : rows.map Prod.snd = features.map fun e => ⟨versionId, e.1, e.2⟩) {f : ℕ × FeatureRow}
    (hf : f ∈ rows) : f.2.crateVersion = versionId := by
  have hm : f.2 ∈ rows.map Prod.snd := List.mem_map_of_mem hf
  rw [h] at hm
  obtain ⟨e, -, he⟩ := List.mem_map.mp hm
  rw [← he]

theorem recorded_of_forall₂ {rows : List (ℕ × DependencyRow)} {deps : List PublishDependency}
    (h : List.Forall₂ (Recorded db' versionId) rows deps) {r : ℕ × DependencyRow}
    (hr : r ∈ rows) : ∃ d, Recorded db' versionId r d := by
  induction h with
  | nil => cases hr
  | cons hd _ ih =>
    rcases List.mem_cons.mp hr with rfl | hr
    · exact ⟨_, hd⟩
    · exact ih hr

theorem Released.consistent (h : Released db p ck crate versionId db') (hc : Consistent db) :
    Consistent db' := by
  have hversions : ∀ v ∈ db'.crateVersions.rows, v ∈ db.crateVersions.rows ∨
      v = (versionId, ⟨crate, p.vers.display, hexEncode ck, false, p.links⟩) := by
    intro v hv
    rw [h.versions] at hv
    exact (List.mem_append.mp hv).imp_right List.mem_singleton.mp
  refine ⟨h.labels hc.labels, fun v hv => ?_, fun v hv => ?_, fun f hf => ?_, fun d hd => ?_⟩
  · rcases hversions v hv with hv | rfl
    · obtain ⟨name, hn⟩ := hc.versions v hv
      exact ⟨name, h.named.subset hn⟩
    · exact ⟨p.name, h.crate_named⟩
  · rcases hversions v hv with hv | rfl
    · exact hc.texts v hv
    · exact ⟨p.vers, ck, rfl, rfl⟩
  · obtain ⟨rows, hrows, hmap⟩ := h.features
    rw [hrows] at hf
    rcases List.mem_append.mp hf with hf | hf
    · exact h.ids_subset (hc.features f hf)
    · rw [feature_of_map hmap hf]
      exact h.versionId_mem
  · obtain ⟨rows, hrows, hrec⟩ := h.dependencies
    rw [hrows] at hd
    rcases List.mem_append.mp hd with hd | hd
    · obtain ⟨h1, h2, h3⟩ := hc.dependencies d hd
      exact ⟨h.ids_subset h1, PgIndex.ids_subset h.named h2, h3⟩
    · obtain ⟨dep, hnamed, hrow⟩ := recorded_of_forall₂ hrec hd
      rw [hrow]
      exact ⟨h.versionId_mem, mem_ids.mpr ⟨_, _, hnamed⟩, dep.versionReq, rfl⟩

end Released

/-- A flag changes nothing else of a row. -/
theorem flag_eq (db : Db) (crateName version : String) (yanked : Bool) (cv : ℕ × VersionRow) :
    ∃ flag, db.flag crateName version yanked cv = { cv.2 with yanked := flag } := by
  unfold Db.flag
  split_ifs
  · exact ⟨yanked, rfl⟩
  · exact ⟨cv.2.yanked, rfl⟩

theorem consistent_setYank {db : Db} (crateName version : String) (yanked : Bool)
    (hc : Consistent db) : Consistent (db.setYank crateName version yanked) := by
  have hrows : ∀ v ∈ (db.setYank crateName version yanked).crateVersions.rows,
      ∃ u ∈ db.crateVersions.rows, ∃ flag, v = (u.1, { u.2 with yanked := flag }) := by
    intro v hv
    obtain ⟨u, hu, rfl⟩ := List.mem_map.mp hv
    obtain ⟨flag, hflag⟩ := flag_eq db crateName version yanked u
    exact ⟨u, hu, flag, by rw [hflag]⟩
  have hids : (db.setYank crateName version yanked).crateVersions.ids = db.crateVersions.ids := by
    unfold Table.ids Db.setYank
    rw [Table.rows_update, List.map_map]
    rfl
  refine ⟨hc.labels, fun v hv => ?_, fun v hv => ?_, fun f hf => ?_, fun d hd => ?_⟩
  · obtain ⟨u, hu, flag, rfl⟩ := hrows v hv
    exact hc.versions u hu
  · obtain ⟨u, hu, flag, rfl⟩ := hrows v hv
    exact hc.texts u hu
  · rw [hids]
    exact hc.features f hf
  · rw [hids]
    exact hc.dependencies d hd

theorem Move.consistent {db db' : Db} (h : Move db db') (hc : Consistent db) :
    Consistent db' := by
  cases h with
  | none => exact hc
  | undone new => exact ⟨hc.labels, hc.versions, hc.texts, hc.features, hc.dependencies⟩
  | released h => exact h.consistent hc
  | flagged crateName version yanked => exact consistent_setYank crateName version yanked hc

/-- **Every reachable database is consistent.** -/
theorem consistent_final (calls : List Call) : Consistent (Run.final step Db.empty calls) :=
  Run.final_invariant (fun _ c hc => (move_step _ c).consistent hc) consistent_empty calls

end PgIndex

end Freighter
