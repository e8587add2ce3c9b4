import Freighter.Lib.Run
import Freighter.Storage.S3

/-!
# The keys of a release

`put_crate` and `delete_crate` send requests for the keys that `construct_paths` makes.

* `Release.keys`; **`Release.eq_of_owns`**: a key is of one release at most.
* `Request`, `send`: what is sent to the bucket; `CrateCall.requests`: what the calls send, and
  `run_eq`: they do nothing else.
* **`keys_identify_release`**: keys determine the release, and no requests for other releases,
  whatever their order, change what is under its keys.
-/

namespace Freighter

namespace S3

/-! ## Releases -/

/-- A version of a crate. Names over letters, digits, `-` and `_` have no dots. -/
structure Release where
  name : String
  version : Version
  noDot : '.' ∉ name.toList

/-- The keys of a tarball of the release: the legacy one and the one with the checksum. -/
def Release.keys (r : Release) (tarballChecksum : Checksum) : String × String :=
  constructPaths r.name r.version.display tarballChecksum

/-- The key is one of the release. -/
def Release.Owns (r : Release) (path : String) : Prop :=
  ∃ c, path = (r.keys c).1 ∨ path = (r.keys c).2

section Releases

variable {r r' : Release} {c c' : Checksum} {path : String}

theorem Release.eq_of_eq (hname : r.name = r'.name) (hversion : r.version = r'.version) :
    r = r' := by
  cases r
  cases r'
  cases hname
  cases hversion
  rfl

/-- The key with the checksum determines the release and the checksum. -/
theorem Release.eq_of_new (h : (r.keys c).2 = (r'.keys c').2) : r = r' ∧ c = c' := by
  obtain ⟨hname, hversion⟩ := newPath_inj r.noDot r'.noDot h
  exact ⟨Release.eq_of_eq hname hversion, checksum_of_newPath h⟩

/-- The legacy key determines the release. -/
theorem Release.eq_of_old (h : (r.keys c).1 = (r'.keys c').1) : r = r' := by
  obtain ⟨hname, hversion⟩ := oldPath_inj r.noDot r'.noDot h
  exact Release.eq_of_eq hname hversion

theorem Release.old_ne_new : (r.keys c).1 ≠ (r'.keys c').2 := oldPath_ne_newPath _ _ _ _ _

/-- **A key is of one release at most.** -/
theorem Release.eq_of_owns (h : r.Owns path) (h' : r'.Owns path) : r = r' := by
  obtain ⟨c, hc⟩ := h
  obtain ⟨c', hc'⟩ := h'
  rcases hc with hc | hc <;> rcases hc' with hc' | hc'
  · exact Release.eq_of_old (hc.symm.trans hc')
  · exact absurd (hc.symm.trans hc') Release.old_ne_new
  · exact absurd (hc'.symm.trans hc) Release.old_ne_new
  · exact (Release.eq_of_new (hc.symm.trans hc')).1

end Releases

/-! ## Requests to the bucket -/

/-- A request that changes an object, and whether it fails. -/
inductive Request where
  | put (path : String) (data : Bytes) (fails : Bool)
  | delete (path : String) (fails : Bool)

def Request.path : Request → String
  | .put path _ _ => path
  | .delete path _ => path

def send (b : Bucket) : Request → Except StorageError Unit × Bucket
  | .put path data fails => putObject fails b path data
  | .delete path fails => deleteObject fails b path

/-- A call that changes objects of a release. -/
inductive CrateCall where
  | putCrate (crateBytes : Bytes) (fails : Bool)
  | deleteCrate (newFails oldFails : Bool)

/-- The call for a tarball of the release. -/
def CrateCall.run (call : CrateCall) (r : Release) (tarballChecksum : Checksum) (b : Bucket) :
    Except StorageError Unit × Bucket :=
  match call with
  | .putCrate crateBytes fails =>
    S3.putCrate fails b r.name r.version.display crateBytes tarballChecksum
  | .deleteCrate newFails oldFails =>
    S3.deleteCrate newFails oldFails b r.name r.version.display tarballChecksum

/-- What the call sends. The two requests of `delete_crate` are under way together. -/
def CrateCall.requests (call : CrateCall) (r : Release) (tarballChecksum : Checksum) :
    List Request :=
  let (old, new) := r.keys tarballChecksum
  match call with
  | .putCrate crateBytes fails => [.put new crateBytes fails]
  | .deleteCrate newFails oldFails => [.delete new newFails, .delete old oldFails]

section Requests

variable {r : Release} {c : Checksum} {b : Bucket} {q : Request} {qs : List Request}
  {call : CrateCall} {path : String}

/-- A call changes the bucket by its requests. -/
theorem run_eq (call : CrateCall) (r : Release) (c : Checksum) (b : Bucket) :
    (call.run r c b).2 = Run.final send b (call.requests r c) := by
  cases call with
  | putCrate crateBytes fails => rfl
  | deleteCrate newFails oldFails => cases newFails <;> cases oldFails <;> rfl

theorem owns_of_mem_requests (h : q ∈ call.requests r c) : r.Owns q.path := by
  cases call with
  | putCrate crateBytes fails =>
    rw [List.mem_singleton.mp h]
    exact ⟨c, Or.inr rfl⟩
  | deleteCrate newFails oldFails =>
    rcases List.mem_pair.mp h with rfl | rfl
    · exact ⟨c, Or.inr rfl⟩
    · exact ⟨c, Or.inl rfl⟩

/-- A request changes nothing but the object under its key. -/
theorem send_other (h : path ≠ q.path) : (send b q).2 path = b path := by
  cases q with
  | put key data fails =>
    cases fails with
    | true => rfl
    | false => exact Function.update_of_ne h _ _
  | delete key fails =>
    cases fails with
    | true => rfl
    | false => exact Function.update_of_ne h _ _

/-- Nor do many. -/
theorem final_other (h : ∀ q ∈ qs, path ≠ q.path) : Run.final send b qs path = b path := by
  induction qs generalizing b with
  | nil => rfl
  | cons q qs ih =>
    rw [Run.final_cons, ih fun q' hq' => h q' (List.mem_cons_of_mem q hq')]
    exact send_other (h q List.mem_cons_self)

/-- **Requests for other releases** leave the objects of a release. -/
theorem final_of_others (h : ∀ q ∈ qs, ∃ (call : CrateCall) (r' : Release) (c' : Checksum),
      r' ≠ r ∧ q ∈ call.requests r' c') (hpath : r.Owns path) :
    Run.final send b qs path = b path := by
  refine final_other fun q hq heq => ?_
  obtain ⟨call, r', c', hne, hmem⟩ := h q hq
  exact hne (Release.eq_of_owns (heq ▸ owns_of_mem_requests hmem) hpath)

end Requests

/-- **Keys identify the release.** The key with the checksum determines the name, the version and
the checksum, the legacy key the name and the version, and the two kinds are apart. So neither a
call of `put_crate` or `delete_crate` for another release nor any requests of such calls, in
whatever order they come, touch an object of a release. -/
theorem keys_identify_release (r r' : Release) (c c' : Checksum) :
    ((r.keys c).2 = (r'.keys c').2 → r = r' ∧ c = c') ∧
    ((r.keys c).1 = (r'.keys c').1 → r = r') ∧
    (r.keys c).1 ≠ (r'.keys c').2 ∧
    (r' ≠ r → ∀ (call : CrateCall) (b : Bucket) (path : String), r.Owns path →
      (call.run r' c' b).2 path = b path) ∧
    ∀ qs : List Request, (∀ q ∈ qs, ∃ (call : CrateCall) (other : Release) (checksum : Checksum),
        other ≠ r ∧ q ∈ call.requests other checksum) →
      ∀ (b : Bucket) (path : String), r.Owns path → Run.final send b qs path = b path := by
  refine ⟨Release.eq_of_new, Release.eq_of_old, Release.old_ne_new, fun hne call b path hpath => ?_,
    fun qs hqs b path hpath => final_of_others hqs hpath⟩
  rw [run_eq]
  exact final_of_others (fun q hq => ⟨call, r', c', hne, hq⟩) hpath

end S3

end Freighter
