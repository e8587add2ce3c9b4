import Freighter.Server.Downloads
import Freighter.Server.Lifetime

/-!
# Requests on the registry, at once

A publish, yank, unyank or download of the registry in one step, and what it answers of the stores'
contents.

* `Request.apply`: a request on the registry;
* `apply_publish`, `apply_yank`, `apply_download`: the same, from the stores it represents;
* `Has.apply`: a release keeps its checksum.
-/

namespace Freighter

namespace Server

open FsIndex (CrateMetaPath accessCrate pullFile)
open Registry (Represents find)
open Routes (Failure)

/-! ## Requests at once -/

/-- A failed download; it has no other failures. -/
def Reply.ofFailure : Failure Empty → Reply
  | .api (.index e) => .indexError e
  | .storage e => .storageError e
  | _ => .storageError .serviceError

/-- What a client is answered. -/
def Reply.ofExcept {ε α : Type} (failed : ε → Reply) (done : α → Reply) : Except ε α → Reply
  | .ok x => done x
  | .error e => failed e

/-- A request on the registry. -/
def Request.apply (sha256 : Bytes → Checksum) (faults : Faults) (reg : Registry) :
    Request → Reply × Registry
  | .publish json crateBytes =>
    (Registry.publish sha256 faults json crateBytes reg).map
      (.ofExcept .indexError fun _ => .done) id
  | .yank crateName version flag =>
    (Registry.yank faults flag crateName version reg).map
      (.ofExcept .indexError fun _ => .done) id
  | .download name version =>
    (Registry.download faults name version reg).map (.ofExcept .ofFailure .data) id

/-- The registry, a request at a time. -/
def atOnce {ι : Type} (sha256 : Bytes → Checksum) (reqs : ι → Request) (reg : Registry)
    (call : ι × Faults) : Reply × Registry :=
  (reqs call.1).apply sha256 call.2 reg

/-- The release of a version has this checksum. -/
def Has (reg : Registry) (name : String) (version : Version) (c : Checksum) : Prop :=
  ∃ m r, accessCrate name = .ok m ∧ find (reg m.key) version = some r ∧ r.entry.cksum = c

section Apply

variable {L : Libs} {sha256 : Bytes → Checksum} {files : FsIndex.Files} {bucket : S3.Bucket}
  {reg : Registry} {m : CrateMetaPath} {name : String} {version : Version} {json : Publish}

theorem apply_of_error {r : Request} {e : IndexError}
    (h : accessCrate (r.op sha256).crateName = .error e) (faults : Faults) :
    r.apply sha256 faults reg = (.indexError e, reg) := by
  cases r with
  | publish json crateBytes =>
    have hm : accessCrate json.name = .error e := h
    simp only [Request.apply, Registry.publish, Registry.crate_of_error hm]
    rfl
  | yank crateName version flag =>
    have hm : accessCrate crateName = .error e := h
    simp only [Request.apply, Registry.yank, Registry.crate_of_error hm]
    rfl
  | download name version =>
    have hm : accessCrate name = .error e := h
    simp only [Request.apply, Registry.download, Registry.crate_of_error hm]
    rfl

/-- A publish, by what it makes of the file of its crate. -/
theorem apply_publish (h : Represents L sha256 files bucket reg)
    (hm : accessCrate json.name = .ok m) (faults : Faults) (crateBytes : Bytes) :
    (Request.publish json crateBytes).apply sha256 faults reg =
      match FsIndex.publishContents L json (sha256 crateBytes)
        (pullFile faults.readIndex files m.relPath) with
      | .error e => (.indexError e, reg)
      | .ok _ =>
        if faults.storeTarball || faults.writeIndex then (.indexError .serviceError, reg)
        else
          (.done, Function.update reg m.key
            (reg m.key ++ [⟨FsIndex.release json (sha256 crateBytes), crateBytes⟩])) := by
  simp only [Request.apply, Registry.publish, Registry.crate_of_ok hm,
    Registry.publishContents_eq h hm]
  cases faults.readIndex with
  | true => rfl
  | false =>
    simp only [Bool.false_eq_true, if_false]
    cases find (reg m.key) json.vers with
    | some r => rfl
    | none =>
      simp only
      split_ifs <;> rfl

theorem apply_yank (h : Represents L sha256 files bucket reg) (hm : accessCrate name = .ok m)
    (faults : Faults) (flag : Bool) :
    (Request.yank name version flag).apply sha256 faults reg =
      match FsIndex.yankContents L version flag (pullFile faults.readIndex files m.relPath) with
      | .error e => (.indexError e, reg)
      | .ok _ =>
        if faults.writeIndex then (.indexError .serviceError, reg)
        else
          (.done, Function.update reg m.key
            ((reg m.key).map (Registry.setYanked version flag))) := by
  obtain ⟨q, hq⟩ := Registry.yankContents_eq h hm faults.readIndex flag version
  simp only [Request.apply, Registry.yank, Registry.crate_of_ok hm, hq]
  cases faults.readIndex with
  | true => rfl
  | false =>
    simp only [Bool.false_eq_true, if_false]
    cases find (reg m.key) version with
    | none => rfl
    | some r =>
      simp only
      split_ifs <;> rfl

theorem apply_download (h : Represents L sha256 files bucket reg) (hm : accessCrate name = .ok m)
    (faults : Faults) :
    (Request.download name version).apply sha256 faults reg =
      match FsIndex.existsAnswer L version (pullFile faults.readIndex files m.relPath) with
      | .error e => (.indexError e, reg)
      | .ok e =>
        if faults.fetchTarball then (.storageError .serviceError, reg)
        else
          match bucket (S3.newPath name version.display e.tarballChecksum) with
          | some d => (.data d, reg)
          | none => (.storageError .notFound, reg) := by
  simp only [Request.apply, Registry.download, Registry.crate_of_ok hm,
    Registry.existsAnswer_eq h hm]
  cases faults.readIndex with
  | true => rfl
  | false =>
    simp only [Bool.false_eq_true, if_false]
    cases hr : find (reg m.key) version with
    | none => rfl
    | some r =>
      simp only [h.newPath_of_found hm hr]
      split_ifs <;> rfl

theorem download_registry (faults : Faults) :
    (Registry.download faults name version reg : Except (Failure Empty) Bytes × Registry).2 =
      reg := by
  unfold Registry.download
  cases Registry.crate faults reg name with
  | error e => rfl
  | ok x =>
    simp only
    cases find x.2 version with
    | none => rfl
    | some r =>
      simp only
      split_ifs <;> rfl

/-- What `confirm_existence` finds. -/
theorem has_of_existsAnswer (h : Represents L sha256 files bucket reg)
    (hm : accessCrate name = .ok m) {fails : Bool} {e : CrateVersionExists}
    (he : FsIndex.existsAnswer L version (pullFile fails files m.relPath) = .ok e) :
    Has reg name version e.tarballChecksum := by
  rw [Registry.existsAnswer_eq h hm] at he
  cases fails with
  | true => cases he
  | false =>
    cases hr : find (reg m.key) version with
    | none =>
      rw [hr] at he
      cases he
    | some r =>
      rw [hr] at he
      cases he
      exact ⟨m, r, hm, hr, rfl⟩

/-- New releases of a crate that keep the checksums of the old. -/
theorem Has.update {c : Checksum} (h : Has reg name version c) {key : String}
    {releases : List Release} (hreleases : ∀ r, find (reg key) version = some r →
      ∃ r', find releases version = some r' ∧ r'.entry.cksum = r.entry.cksum) :
    Has (Function.update reg key releases) name version c := by
  obtain ⟨m, r, hm, hr, hc⟩ := h
  rcases eq_or_ne m.key key with rfl | hkey
  · obtain ⟨r', hr', hc'⟩ := hreleases r hr
    exact ⟨m, r', hm, by rwa [Function.update_self], hc'.trans hc⟩
  · exact ⟨m, r, hm, by rwa [Function.update_of_ne hkey], hc⟩

/-- **A release keeps its checksum.** -/
theorem Has.apply {c : Checksum} (h : Has reg name version c) (r : Request) (faults : Faults) :
    Has (r.apply sha256 faults reg).2 name version c := by
  cases r with
  | publish json crateBytes =>
    simp only [Request.apply]
    cases hout : Registry.publish sha256 faults json crateBytes reg with
    | mk out reg' =>
      cases out with
      | error e =>
        have hsame : reg' = reg := by
          have herror := Registry.publish_error (congrArg Prod.fst hout)
          rwa [hout] at herror
        subst hsame
        exact h
      | ok res =>
        obtain ⟨-, m, -, -, hreg⟩ := Registry.publish_ok hout
        subst hreg
        exact h.update fun r hr => ⟨r, Registry.find_append _ hr _, rfl⟩
  | yank crateName version' flag =>
    simp only [Request.apply]
    cases hout : Registry.yank faults flag crateName version' reg with
    | mk out reg' =>
      cases out with
      | error e =>
        have hsame : reg' = reg := by
          have herror := Registry.yank_error (congrArg Prod.fst hout)
          rwa [hout] at herror
        subst hsame
        exact h
      | ok u =>
        obtain ⟨m, -, hreg⟩ := Registry.yank_ok hout
        subst hreg
        refine h.update fun r hr => ⟨_, Registry.find_setYanked _ version' flag hr, ?_⟩
        split_ifs <;> rfl
  | download name' version' =>
    have hsame := @download_registry reg name' version' faults
    simp only [Request.apply]
    cases hout : (Registry.download faults name' version' reg : Except (Failure Empty) _ × _) with
    | mk out reg' =>
      rw [hout] at hsame
      subst hsame
      cases out <;> exact h

end Apply

end Server

end Freighter
