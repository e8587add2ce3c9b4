import Freighter.FsIndex.History
import Freighter.Storage.S3

/-!
# Concurrent requests on the server

Publish, yank, unyank and download requests over the filesystem index and the bucket, from the point
where they are authorised. A request makes its index call step by step; the `end_step` of a publish
is its `put_crate`. When the index call has returned, a failed publish that stored its tarball
cleans up with `delete_crate`, and a download pulls the tarball. A run is any interleaving of the
steps.

* `Request`, `Stage`, `State`, `step`; `Move`: what a step does, **`step_cases`**;
* `index_step`, **`exec_index`**: the index calls of a run are a run of the index.

SHA-256 is the parameter `sha256`.
-/

namespace Freighter

namespace Server

open FsIndex (IndexOp Contents contentsOf)

inductive Request where
  | publish (json : Publish) (crateBytes : Bytes)
  | yank (crateName : String) (version : Version) (yank : Bool)
  | download (name : String) (version : Version)

/-- What a request is answered. -/
inductive Reply where
  | done
  | data (d : Bytes)
  | indexError (e : IndexError)
  | storageError (e : StorageError)
deriving DecidableEq

/-- Where a request is: in its index call, before the pull of the path with the checksum, before
the pull of the legacy path, answered. -/
inductive Stage where
  | running
  | fetching (tarballChecksum : Checksum)
  | fallingBack (tarballChecksum : Checksum) (firstErr : StorageError)
  | answered (r : Reply)
deriving DecidableEq

/-- The two stores, and for each request its `stored_crate` and where it is. -/
structure State (ι : Type) where
  index : FsIndex.State ι
  bucket : S3.Bucket
  storedCrate : ι → Bool
  stage : ι → Stage

inductive Label (ι : Type) where
  | index (a : FsIndex.Label ι)
  | putCrate (i : ι) (fails : Bool)
  | finish (i : ι) (newFails oldFails : Bool)
  | pullNew (i : ι) (fails : Bool)
  | pullOld (i : ι) (fails : Bool)

variable {ι : Type} [DecidableEq ι] (L : Libs) (sha256 : Bytes → Checksum) (reqs : ι → Request)

/-- The index call of a request. -/
def Request.op : Request → IndexOp
  | .publish json crateBytes => .publish json (sha256 crateBytes)
  | .yank crateName version flag => .yank crateName version flag
  | .download name version => .confirm name version

/-- The path of the tarball of a publish request. -/
def tarballPath (json : Publish) (crateBytes : Bytes) : String :=
  S3.newPath json.name json.vers.display (sha256 crateBytes)

omit [DecidableEq ι] in
/-- Empty stores, no request has started. -/
def initial : State ι :=
  ⟨FsIndex.initial fun _ => none, fun _ => none, fun _ => false, fun _ => .running⟩

def State.goTo (s : State ι) (i : ι) (st : Stage) : State ι :=
  { s with stage := Function.update s.stage i st }

/-- What a request does with the result of its index call. The result of the clean-up is not looked
at. -/
def finish (s : State ι) (i : ι) (newFails oldFails : Bool) (r : FsIndex.Outcome) :
    Option (State ι) :=
  match reqs i, r with
  | .publish _ _, .ok _ => some (s.goTo i (.answered .done))
  | .publish json crateBytes, .error e =>
    if s.storedCrate i then
      some { s.goTo i (.answered (.indexError e)) with
        bucket := (S3.deleteCrate newFails oldFails s.bucket json.name json.vers.display
          (sha256 crateBytes)).2 }
    else some (s.goTo i (.answered (.indexError e)))
  | .yank _ _ _, .ok _ => some (s.goTo i (.answered .done))
  | .yank _ _ _, .error e => some (s.goTo i (.answered (.indexError e)))
  | .download _ _, .ok (.found e) => some (s.goTo i (.fetching e.tarballChecksum))
  | .download _ _, .ok .done => none
  | .download _ _, .error e => some (s.goTo i (.answered (.indexError e)))

def step (s : State ι) : Label ι → Option (State ι)
  | .index (.endStep _ _) => none
  | .index a =>
    (FsIndex.step L (fun i => (reqs i).op sha256) s.index a).map fun index => { s with index }
  | .putCrate i fails =>
    match reqs i with
    | .publish json crateBytes =>
      match S3.putCrate fails s.bucket json.name json.vers.display crateBytes
        (sha256 crateBytes) with
      | (.error _, bucket) =>
        (FsIndex.step L (fun i => (reqs i).op sha256) s.index
          (.endStep i (.error .serviceError))).map fun index => { s with index, bucket }
      | (.ok (), bucket) =>
        (FsIndex.step L (fun i => (reqs i).op sha256) s.index (.endStep i (.ok ()))).map
          fun index =>
            { s with index, bucket, storedCrate := Function.update s.storedCrate i true }
    | _ => none
  | .finish i newFails oldFails =>
    match s.stage i, s.index.pc i with
    | .running, .returned r => finish sha256 reqs s i newFails oldFails r
    | _, _ => none
  | .pullNew i fails =>
    match reqs i, s.stage i with
    | .download name version, .fetching c =>
      match S3.pullObject fails s.bucket (S3.newPath name version.display c) with
      | .ok res => some (s.goTo i (.answered (.data res)))
      | .error firstErr => some (s.goTo i (.fallingBack c firstErr))
    | _, _ => none
  | .pullOld i fails =>
    match reqs i, s.stage i with
    | .download name version, .fallingBack _ firstErr =>
      match S3.pullObject fails s.bucket (S3.oldPath name version.display) with
      | .ok res => some (s.goTo i (.answered (.data res)))
      | .error _ => some (s.goTo i (.answered (.storageError firstErr)))
    | _, _ => none

/-! ## What a step does -/

/-- Every way in which a step changes the state. -/
inductive Move (s : State ι) : Label ι → State ι → Prop
  | index {a : FsIndex.Label ι} {index : FsIndex.State ι} (ha : ∀ i r, a ≠ .endStep i r)
      (h : FsIndex.step L (fun i => (reqs i).op sha256) s.index a = some index) :
      Move s (.index a) { s with index }
  | notStored {i : ι} {index : FsIndex.State ι} {json : Publish} {crateBytes : Bytes}
      (hi : reqs i = .publish json crateBytes)
      (h : FsIndex.step L (fun i => (reqs i).op sha256) s.index
        (.endStep i (.error .serviceError)) = some index) :
      Move s (.putCrate i true) { s with index }
  | stored {i : ι} {index : FsIndex.State ι} {json : Publish} {crateBytes : Bytes}
      (hi : reqs i = .publish json crateBytes)
      (h : FsIndex.step L (fun i => (reqs i).op sha256) s.index (.endStep i (.ok ())) =
        some index) :
      Move s (.putCrate i false) { s with
        index
        bucket := Function.update s.bucket (tarballPath sha256 json crateBytes) (some crateBytes)
        storedCrate := Function.update s.storedCrate i true }
  | cleaned {i : ι} {newFails oldFails : Bool} {json : Publish} {crateBytes : Bytes}
      {e : IndexError} (hi : reqs i = .publish json crateBytes) (hs : s.stage i = .running)
      (hp : s.index.pc i = .returned (.error e)) (h : s.storedCrate i = true) :
      Move s (.finish i newFails oldFails) { s.goTo i (.answered (.indexError e)) with
        bucket := (S3.deleteCrate newFails oldFails s.bucket json.name json.vers.display
          (sha256 crateBytes)).2 }
  | found {i : ι} {newFails oldFails : Bool} {name : String} {version : Version}
      {e : CrateVersionExists}
      (hi : reqs i = .download name version) (hp : s.index.pc i = .returned (.ok (.found e))) :
      Move s (.finish i newFails oldFails) (s.goTo i (.fetching e.tarballChecksum))
  | answered {a : Label ι} {i : ι} {r : Reply} (hr : ∀ d, r ≠ .data d) :
      Move s a (s.goTo i (.answered r))
  | pulled {i : ι} {fails : Bool} {name : String} {version : Version} {c : Checksum} {d : Bytes}
      (hi : reqs i = .download name version) (hs : s.stage i = .fetching c)
      (hd : s.bucket (S3.newPath name version.display c) = some d) :
      Move s (.pullNew i fails) (s.goTo i (.answered (.data d)))
  | missed {i : ι} {fails : Bool} {c : Checksum} {e : StorageError}
      (hs : s.stage i = .fetching c) :
      Move s (.pullNew i fails) (s.goTo i (.fallingBack c e))
  | pulledOld {i : ι} {fails : Bool} {name : String} {version : Version} {d : Bytes}
      (hd : s.bucket (S3.oldPath name version.display) = some d) :
      Move s (.pullOld i fails) (s.goTo i (.answered (.data d)))

variable {L sha256 reqs} {s s' : State ι} {a : Label ι}

theorem pullObject_ok {fails : Bool} {b : S3.Bucket} {path : String} {d : Bytes}
    (h : S3.pullObject fails b path = .ok d) : b path = some d := by
  unfold S3.pullObject at h
  split_ifs at h
  cases hb : b path with
  | none => rw [hb] at h; cases h
  | some d' => rw [hb] at h; cases h; rfl

/-- What becomes of a request whose call on the index has returned. -/
theorem finish_cases {i : ι} {newFails oldFails : Bool} {r : FsIndex.Outcome}
    (hst : s.stage i = .running) (hp : s.index.pc i = .returned r)
    (h : finish sha256 reqs s i newFails oldFails r = some s') :
    Move L sha256 reqs s (.finish i newFails oldFails) s' := by
  cases hi : reqs i with
  | publish json crateBytes =>
    simp only [finish, hi] at h
    cases r with
    | ok x =>
      cases h
      exact .answered (by simp)
    | error e =>
      simp only at h
      split_ifs at h with hstored
      · cases h
        exact .cleaned hi hst hp hstored
      · cases h
        exact .answered (by simp)
  | yank crateName version flag =>
    simp only [finish, hi] at h
    cases r <;> cases h <;> exact .answered (by simp)
  | download name version =>
    simp only [finish, hi] at h
    cases r with
    | error e =>
      cases h
      exact .answered (by simp)
    | ok x =>
      cases x with
      | done => cases h
      | found e =>
        cases h
        exact .found hi hp

theorem step_cases (h : step L sha256 reqs s a = some s') : Move L sha256 reqs s a s' := by
  cases a with
  | index a =>
    cases a with
    | endStep i r => cases h
    | _ =>
      obtain ⟨index, hi, rfl⟩ := Option.map_eq_some_iff.mp h
      exact .index (fun _ _ e => by cases e) hi
  | putCrate i fails =>
    simp only [step] at h
    cases hi : reqs i <;> simp only [hi, reduceCtorEq] at h
    cases fails with
    | true =>
      obtain ⟨index, hs, rfl⟩ := Option.map_eq_some_iff.mp h
      exact .notStored hi hs
    | false =>
      obtain ⟨index, hs, rfl⟩ := Option.map_eq_some_iff.mp h
      exact .stored hi hs
  | finish i newFails oldFails =>
    simp only [step] at h
    cases hst : s.stage i <;> simp only [hst, reduceCtorEq] at h
    cases hp : s.index.pc i <;> simp only [hp, reduceCtorEq] at h
    exact finish_cases hst hp h
  | pullNew i fails =>
    simp only [step] at h
    cases hi : reqs i <;> simp only [hi, reduceCtorEq] at h
    cases hst : s.stage i <;> simp only [hst, reduceCtorEq] at h
    rename_i name version c
    cases hd : S3.pullObject fails s.bucket (S3.newPath name version.display c) with
    | ok d =>
      rw [hd] at h
      cases h
      exact .pulled hi hst (pullObject_ok hd)
    | error e =>
      rw [hd] at h
      cases h
      exact .missed hst
  | pullOld i fails =>
    simp only [step] at h
    cases hi : reqs i <;> simp only [hi, reduceCtorEq] at h
    cases hst : s.stage i <;> simp only [hst, reduceCtorEq] at h
    rename_i name version c firstErr
    cases hd : S3.pullObject fails s.bucket (S3.oldPath name version.display) with
    | ok d =>
      rw [hd] at h
      cases h
      exact .pulledOld (pullObject_ok hd)
    | error e =>
      rw [hd] at h
      cases h
      exact .answered (by simp)

/-! ## The index calls -/

/-- A step of the server is a step of the index or leaves the index as it is. -/
theorem index_step (h : step L sha256 reqs s a = some s') : s'.index = s.index ∨
    ∃ b, FsIndex.step L (fun i => (reqs i).op sha256) s.index b = some s'.index := by
  cases step_cases h with
  | index _ hb => exact Or.inr ⟨_, hb⟩
  | notStored _ hb => exact Or.inr ⟨_, hb⟩
  | stored _ hb => exact Or.inr ⟨_, hb⟩
  | _ => exact Or.inl rfl

/-- **The index calls of a run are a run of the index.** -/
theorem exec_index {labels : List (Label ι)}
    (h : Run.exec (step L sha256 reqs) initial labels = some s) :
    ∃ calls, Run.exec (FsIndex.step L fun i => (reqs i).op sha256)
      (FsIndex.initial fun _ => none) calls = some s.index := by
  induction labels using List.reverseRecOn generalizing s with
  | nil =>
    cases h
    exact ⟨[], rfl⟩
  | append_singleton labels a ih =>
    obtain ⟨t, ht, hs⟩ := Run.exec_concat_eq_some.mp h
    obtain ⟨calls, hcalls⟩ := ih ht
    rcases index_step hs with he | ⟨b, hb⟩
    · exact ⟨calls, by rw [he, hcalls]⟩
    · exact ⟨calls ++ [b], Run.exec_concat_eq_some.mpr ⟨_, hcalls, hb⟩⟩

end Server

end Freighter
