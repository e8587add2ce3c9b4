import Freighter.FsIndex.Origin
import Freighter.Server.Machine

/-!
# Downloads serve what was published

Every object in the bucket is the tarball of a publish request, under the path with its checksum, so
a download that gets data gets the tarball of the version that `confirm_existence` found.

* `Served`: what the bucket and the downloads have at any time; **`served_step`**;
* `CollisionFree`: no two tarballs of the run have one checksum;
* **`download_faithful`**: a download answers with the tarball that was published, and the index
  has its checksum.
-/

namespace Freighter

namespace Server

open FsIndex (IndexOp Contents contentsOf Published)

variable {ι : Type} [DecidableEq ι] {L : Libs} {sha256 : Bytes → Checksum} {reqs : ι → Request}
  {s s' : State ι} {a : Label ι}

/-! ## The invariant -/

variable (sha256 reqs) in
/-- Objects are tarballs of publish requests, under their checksums; a download asks for the
checksum that was found, and what it has answered has that checksum. -/
structure Served (s : State ι) : Prop where
  objects : ∀ path d, s.bucket path = some d →
    ∃ j p, reqs j = .publish p d ∧ path = tarballPath sha256 p d
  fetching : ∀ i c, (s.stage i = .fetching c ∨ ∃ err, s.stage i = .fallingBack c err) →
    ∃ e, s.index.pc i = .returned (.ok (.found e)) ∧ e.tarballChecksum = c
  answered : ∀ i d, s.stage i = .answered (.data d) →
    ∃ j p e, reqs j = .publish p d ∧ s.index.pc i = .returned (.ok (.found e)) ∧
      e.tarballChecksum = sha256 d

/-- A call that has returned makes no more steps. -/
theorem returned_step {ops : ι → IndexOp} {t t' : FsIndex.State ι} {b : FsIndex.Label ι} {i : ι}
    {r : FsIndex.Outcome} (hs : FsIndex.step L ops t b = some t') (hi : t.pc i = .returned r) :
    t'.pc i = .returned r := by
  have hmove : ∀ {j : ι} {pc pc' : FsIndex.Pc}, t.pc j = pc' → pc' ≠ .returned r →
      Function.update t.pc j pc i = .returned r := by
    intro j pc pc' hj hne
    refine FsIndex.moved_or_stayed (Q := fun pc => pc = .returned r) (fun hij => ?_) fun _ => hi
    subst hij
    exact absurd (hj.symm.trans hi) hne
  cases FsIndex.step_cases hs with
  | refused hp => exact hmove hp (by simp)
  | looked hp => exact hmove hp (by simp)
  | acquired hp => exact hmove hp (by simp)
  | pulled hp => exact hmove hp (by simp)
  | stored hp => exact hmove hp (by simp)
  | notStored hp => exact hmove hp (by simp)
  | put hp => exact hmove hp (by simp)
  | notPut hp => exact hmove hp (by simp)
  | released hp => exact hmove hp (by simp)
  | dropped hp => exact hmove hp (by simp)
  | finished hp => exact hmove hp (by simp)

omit [DecidableEq ι] in
/-- No object is under a legacy path. -/
theorem Served.oldPath (h : Served sha256 reqs s) (name version : String) :
    s.bucket (S3.oldPath name version) = none := by
  cases hb : s.bucket (S3.oldPath name version) with
  | none => rfl
  | some d =>
    obtain ⟨j, p, -, hpath⟩ := h.objects _ d hb
    exact absurd hpath (S3.oldPath_ne_newPath _ _ _ _ _)

omit [DecidableEq ι] in
theorem served_initial : Served sha256 reqs (initial : State ι) where
  objects _ _ h := by cases h
  fetching _ _ h := by
    rcases h with h | ⟨err, h⟩
    · cases h
    · cases h
  answered _ _ h := by cases h

/-- A step of the index calls. -/
theorem Served.index (h : Served sha256 reqs s) {ops : ι → IndexOp} {b : FsIndex.Label ι}
    {index : FsIndex.State ι} (hs : FsIndex.step L ops s.index b = some index) :
    Served sha256 reqs { s with index } := by
  refine ⟨h.objects, fun i c hc => ?_, fun i d hd => ?_⟩
  · obtain ⟨e, hpc, he⟩ := h.fetching i c hc
    exact ⟨e, returned_step hs hpc, he⟩
  · obtain ⟨j, p, e, hj, hpc, he⟩ := h.answered i d hd
    exact ⟨j, p, e, hj, returned_step hs hpc, he⟩

/-- A step of one request to another stage. -/
theorem Served.goTo (h : Served sha256 reqs s) {i : ι} {st : Stage}
    (hfetching : ∀ c, (st = .fetching c ∨ ∃ err, st = .fallingBack c err) →
      ∃ e, s.index.pc i = .returned (.ok (.found e)) ∧ e.tarballChecksum = c)
    (hanswered : ∀ d, st = .answered (.data d) →
      ∃ j p e, reqs j = .publish p d ∧ s.index.pc i = .returned (.ok (.found e)) ∧
        e.tarballChecksum = sha256 d) : Served sha256 reqs (s.goTo i st) := by
  refine ⟨h.objects, ?_, ?_⟩
  · exact (Function.forall_update_iff s.stage fun j st => ∀ c, (st = .fetching c ∨
      ∃ err, st = .fallingBack c err) → ∃ e, s.index.pc j = .returned (.ok (.found e)) ∧
        e.tarballChecksum = c).mpr ⟨hfetching, fun j _ => h.fetching j⟩
  · exact (Function.forall_update_iff s.stage fun j st => ∀ d, st = .answered (.data d) →
      ∃ k p e, reqs k = .publish p d ∧ s.index.pc j = .returned (.ok (.found e)) ∧
        e.tarballChecksum = sha256 d).mpr ⟨hanswered, fun j _ => h.answered j⟩

/-- **Every step keeps the invariant.** -/
theorem served_step (h : Served sha256 reqs s) (hs : step L sha256 reqs s a = some s') :
    Served sha256 reqs s' := by
  cases step_cases hs with
  | index _ hstep => exact h.index hstep
  | notStored _ hstep => exact h.index hstep
  | @stored i index p t hi hstep =>
    have hindex := h.index hstep
    refine ⟨?_, hindex.fetching, hindex.answered⟩
    refine (Function.forall_update_iff s.bucket fun path x => ∀ d, x = some d →
      ∃ j p, reqs j = .publish p d ∧ path = tarballPath sha256 p d).mpr
        ⟨fun d hd => ?_, fun path _ => h.objects path⟩
    cases hd
    exact ⟨i, p, hi, rfl⟩
  | @cleaned i newFails oldFails p t e hi hst hp hstored =>
    have hgo : Served sha256 reqs (s.goTo i (.answered (.indexError e))) :=
      h.goTo (by simp) (by simp)
    exact ⟨fun path d hd => h.objects path d (S3.deleteCrate_eq_some hd), hgo.fetching,
      hgo.answered⟩
  | @found i newFails oldFails name version e hi hp =>
    refine h.goTo (fun c hc => ⟨e, hp, ?_⟩) (by simp)
    rcases hc with hc | ⟨err, hc⟩
    · cases hc
      rfl
    · cases hc
  | answered hr =>
    refine h.goTo (by simp) fun d hd => ?_
    cases hd
    exact absurd rfl (hr d)
  | @pulled i fails name version c d hi hst hd =>
    refine h.goTo (by simp) fun d' hd' => ?_
    cases hd'
    obtain ⟨e, hpc, he⟩ := h.fetching i c (Or.inl hst)
    obtain ⟨j, p, hj, hpath⟩ := h.objects _ d hd
    exact ⟨j, p, e, hj, hpc, he.trans (S3.checksum_of_newPath hpath)⟩
  | @missed i fails c err hst =>
    refine h.goTo (fun c' hc => ?_) (by simp)
    rcases hc with hc | ⟨err', hc⟩
    · cases hc
    · cases hc
      exact h.fetching i c (Or.inl hst)
  | pulledOld hd =>
    rw [h.oldPath] at hd
    cases hd

/-! ## Downloads -/

omit [DecidableEq ι] in
variable (sha256 reqs) in
/-- Publish requests whose tarballs have one checksum have one tarball. -/
def CollisionFree : Prop :=
  ∀ i j p q t u, reqs i = .publish p t → reqs j = .publish q u → sha256 t = sha256 u → t = u

/-- **Downloads serve what was published.** A download that answers with data answers with the
tarball of the request that published the entry that `confirm_existence` found; the index has the
checksum of that data for the version, and no other. Nothing is ever under a legacy path. -/
theorem download_faithful (L : Libs) (sha256 : Bytes → Checksum) (reqs : ι → Request)
    (labels : List (Label ι)) (s : State ι)
    (h : Run.exec (step L sha256 reqs) initial labels = some s)
    (hfree : CollisionFree sha256 reqs) :
    (∀ i name version d, reqs i = .download name version → s.stage i = .answered (.data d) →
      ∃ e j p, s.index.pc i = .returned (.ok (.found e)) ∧ e.tarballChecksum = sha256 d ∧
        reqs j = .publish p d ∧
        Published (fun i => (reqs i).op sha256) s.index j p (sha256 d) ∧
        toAsciiLowercase p.name = toAsciiLowercase name ∧ p.vers = version ∧
        ∃ c, contentsOf L s.index.files (FsIndex.keyPath (toAsciiLowercase name)) = some c ∧
          (∃ v ∈ c.1, FsIndex.unflagged v = FsIndex.release p (sha256 d)) ∧
          ∀ v ∈ c.1, v.vers = version → v.cksum = sha256 d) ∧
    ∀ name version, s.bucket (S3.oldPath name version) = none := by
  have hserved : Served sha256 reqs s :=
    Run.exec_invariant (fun _ _ _ hI hs => served_step hI hs) h served_initial
  refine ⟨fun i name version d hi hd => ?_, hserved.oldPath⟩
  obtain ⟨k, q, e, hk, hpc, he⟩ := hserved.answered i d hd
  obtain ⟨calls, hcalls⟩ := exec_index h
  have hop : (reqs i).op sha256 = .confirm name version := by rw [hi]; rfl
  obtain ⟨j, p, ck, hpub, hkey, hvers, hck⟩ :=
    FsIndex.found_origin hcalls (i := i) hop (by rw [hpc]; rfl)
  -- the request that published has the tarball that was pulled
  obtain ⟨t, hj, rfl⟩ : ∃ t, reqs j = .publish p t ∧ sha256 t = ck := by
    have hopj := hpub.op
    cases hr : reqs j <;> rw [hr] at hopj <;> cases hopj
    exact ⟨_, rfl, rfl⟩
  have htd : t = d := hfree j k p q t d hj hk (hck.symm.trans he)
  subst htd
  have hname : toAsciiLowercase p.name = toAsciiLowercase name := by
    have hkey' := hkey
    simp only [IndexOp.key, hi, hj] at hkey'
    exact hkey'
  obtain ⟨c, hc, hentry, hall⟩ := FsIndex.cksum_of_published hcalls hpub
  have hpath : ((reqs j).op sha256).relPath = FsIndex.keyPath (toAsciiLowercase name) := by
    rw [IndexOp.relPath, hkey, hop]
    rfl
  refine ⟨e, j, p, hpc, he, hj, hpub, hname, hvers, c, ?_, hentry, fun v hv hv' => ?_⟩
  · rw [← hpath]
    exact hc
  · exact hall v hv (hv'.trans hvers.symm)

variable (sha256) in
/-- A download that holds its lock gets the object of what it finds, when there is one. -/
theorem exec_download {i : ι} {l : ℕ} {name : String} {version : Version}
    {e : CrateVersionExists} {d : Bytes} (hi : reqs i = .download name version)
    (hpc : s.index.pc i = .holding l) (hst : s.stage i = .running)
    (hx : FsIndex.existsAnswer L version
      (FsIndex.pullFile false s.index.files (s.index.locks.lock l).object) = .ok e)
    (hd : s.bucket (S3.newPath name version.display e.tarballChecksum) = some d) :
    (Run.exec (step L sha256 reqs) s [.index (.pull i false), .index (.release i),
      .index (.dropArc i), .index (.onUnlocked i), .finish i false false, .pullNew i false]).map
        (fun s' => s'.stage i) = some (.answered (.data d)) := by
  simp only [Run.exec, step, FsIndex.step, FsIndex.State.move, hpc, hi, Request.op,
    IndexOp.afterPull, hx, Except.map, Function.update_self, Option.map_some, Option.bind_some,
    hst, finish, State.goTo, S3.pullObject, Bool.false_eq_true, if_false, hd]

/-- One request publishes `foo` with the tarball "abc", another downloads it. -/
def fetched : Bool → Request
  | true => .publish foo [97, 98, 99]
  | false => .download "foo" (Version.new 0 0 0)

/-- The publish request is done and the download holds the lock. -/
def fetch : List (Label Bool) :=
  [.index (.start true), .index (.acquire true), .index (.pull true false), .putCrate true false,
    .index (.put true false), .index (.release true), .index (.dropArc true),
    .index (.onUnlocked true), .finish true false false,
    .index (.start false), .index (.acquire false)]

/-- Where both are then. -/
theorem exists_fetch : ∃ t l,
    Run.exec (step Libs.canonical abcHash fetched) initial fetch = some t ∧
    (t.index.pc true).result = some (.ok .done) ∧ t.index.pc false = .holding l ∧
    t.stage false = .running ∧
    t.bucket (tarballPath abcHash foo [97, 98, 99]) = some [97, 98, 99] := by
  have hpull : (Run.exec (step Libs.canonical abcHash fetched) initial
      (fetch ++ [.index (.pull false false)])).isSome = true := by decide +kernel
  have hfacts : (Run.exec (step Libs.canonical abcHash fetched) initial fetch).any (fun s =>
      decide ((s.index.pc true).result = some (.ok .done)) &&
      decide (s.stage false = .running) &&
      decide (s.bucket (tarballPath abcHash foo [97, 98, 99]) = some [97, 98, 99])) = true := by
    decide +kernel
  rw [Option.any_eq_true] at hfacts
  obtain ⟨t, ht, hfacts⟩ := hfacts
  rw [Bool.and_eq_true, Bool.and_eq_true, decide_eq_true_eq, decide_eq_true_eq,
    decide_eq_true_eq] at hfacts
  obtain ⟨⟨hresult, hrunning⟩, hobject⟩ := hfacts
  -- the download holds its lock, as it can pull
  obtain ⟨u, hu⟩ := Option.isSome_iff_exists.mp hpull
  obtain ⟨t', ht', hstep⟩ := Run.exec_concat_eq_some.mp hu
  cases ht.symm.trans ht'
  obtain ⟨index, hindex, -⟩ := Option.map_eq_some_iff.mp hstep
  obtain ⟨l, hl⟩ := FsIndex.holding_of_pull hindex
  exact ⟨t, l, ht, hresult, hl, hrunning, hobject⟩

/-- The download gets "abc", and the index has its checksum. -/
theorem download_faithful_fetched : ∃ s, Run.exec (step Libs.canonical abcHash fetched) initial
      (fetch ++ [.index (.pull false false), .index (.release false), .index (.dropArc false),
        .index (.onUnlocked false), .finish false false false, .pullNew false false]) = some s ∧
    s.stage false = .answered (.data [97, 98, 99]) ∧
    ∃ c, contentsOf Libs.canonical s.index.files (FsIndex.keyPath "foo") = some c ∧
      ∀ v ∈ c.1, v.vers = Version.new 0 0 0 → v.cksum = abcHash [97, 98, 99] := by
  obtain ⟨t, l, ht, hresult, hl, hrunning, hobject⟩ := exists_fetch
  obtain ⟨calls, hcalls⟩ := exec_index ht
  have hpub : Published (fun i => (fetched i).op abcHash) t.index true foo
      (abcHash [97, 98, 99]) := ⟨rfl, ⟨⟨"foo", "index/3/f/foo"⟩, by decide⟩, _, hresult⟩
  obtain ⟨c, hc, ⟨v, hv, hu⟩, hall⟩ := FsIndex.cksum_of_published hcalls hpub
  have hobj : (t.index.locks.lock l).object = FsIndex.keyPath "foo" :=
    (FsIndex.exec_inv hcalls).object_eq (i := false) (m := .read) (by rw [hl]; rfl)
  obtain ⟨-, hvers, -⟩ := FsIndex.of_unflagged_eq_release hu
  obtain ⟨e, he⟩ := FsIndex.existsAnswer_of_mem hc hv hvers
  obtain ⟨c', v', hc', hv', hvers', hck⟩ := FsIndex.existsAnswer_ok he
  cases hc.symm.trans hc'
  rw [hall v' hv' hvers'] at hck
  have hdownload : fetched false = .download "foo" (Version.new 0 0 0) := rfl
  have hexec := exec_download abcHash hdownload hl hrunning (by rw [hobj]; exact he)
    (by rw [hck]; exact hobject)
  obtain ⟨s, hs, hstage⟩ := Option.map_eq_some_iff.mp hexec
  have hrun := Run.exec_append_eq_some.mpr ⟨t, ht, hs⟩
  have hfree : CollisionFree abcHash fetched := by
    intro i j p q t u hi hj _
    cases i <;> cases j <;> cases hi <;> cases hj
    rfl
  obtain ⟨e', j, p, -, -, -, -, -, -, hindexed⟩ := (download_faithful Libs.canonical abcHash
    fetched _ s hrun hfree).1 false "foo" (Version.new 0 0 0) [97, 98, 99] rfl hstage
  obtain ⟨c, hc, -, hall⟩ := hindexed
  exact ⟨s, hrun, hstage, c, hc, hall⟩

end Server

end Freighter
