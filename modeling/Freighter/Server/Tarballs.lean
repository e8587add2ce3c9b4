import Freighter.FsIndex.Origin
import Freighter.Server.Machine

/-!
# Every index entry has its tarball

The clean-up of a failed publish runs after the lock of the crate is released, so it can take the
tarball of another request for the same version with the same bytes.

* `Stocked`: every index entry has its object; `Spares`: a clean-up takes no object that an entry
  has, or that a request has stored and is about to write into the index.
* **`stocked_of_spares`**: as long as every step spares, every entry has its object;
  **`broken_of_not_spares`**: a step that does not spare breaks this at once or by one more step.
* `Alone`: no other request that uses the path of a clean-up has come to write the index;
  **`stocked_of_distinct`**: every entry has its object when no two requests have one path.
-/

namespace Freighter

namespace Server

open FsIndex (IndexOp Contents contentsOf)

variable {ι : Type} [DecidableEq ι] (L : Libs) (sha256 : Bytes → Checksum) (reqs : ι → Request)

/-- The path of the tarball of an entry. -/
def entryPath (v : CrateVersion) : String := S3.newPath v.name v.vers.display v.cksum

omit [DecidableEq ι] in
/-- Every entry of every index file has its object. -/
def Stocked (s : State ι) : Prop :=
  ∀ file c v, contentsOf L s.index.files file = some c → v ∈ c.1 → s.bucket (entryPath v) ≠ none

/-- The path with the checksum that a step deletes. -/
def cleans (s : State ι) : Label ι → Option String
  | .finish i newFails _ =>
    match reqs i, s.stage i, s.index.pc i with
    | .publish json crateBytes, .running, .returned (.error _) =>
      if s.storedCrate i && !newFails then some (tarballPath sha256 json crateBytes) else none
    | _, _, _ => none
  | _ => none

/-- What a step deletes is not the object of an index entry, or of a request that has stored its
tarball and is about to write the index. -/
def Spares (s : State ι) (a : Label ι) : Prop :=
  ∀ path, cleans sha256 reqs s a = some path →
    (∀ file c v, contentsOf L s.index.files file = some c → v ∈ c.1 → entryPath v ≠ path) ∧
    ∀ j l c json crateBytes, reqs j = .publish json crateBytes → s.index.pc j = .writing l c →
      tarballPath sha256 json crateBytes ≠ path

/-- What carries `Stocked` along a run: a request that is about to write the index has its object
too. -/
structure Supplied (s : State ι) : Prop where
  index : FsIndex.Inv L (fun i => (reqs i).op sha256) s.index
  entries : Stocked L s
  writing : ∀ j l c json crateBytes, reqs j = .publish json crateBytes →
    s.index.pc j = .writing l c → s.bucket (tarballPath sha256 json crateBytes) ≠ none

variable {L sha256 reqs} {s s' : State ι} {a : Label ι}

theorem entryPath_release (json : Publish) (crateBytes : Bytes) :
    entryPath (FsIndex.release json (sha256 crateBytes)) =
      tarballPath sha256 json crateBytes := rfl

theorem entryPath_unflagged (v : CrateVersion) :
    entryPath (FsIndex.unflagged v) = entryPath v := rfl

/-! ## The index calls -/

/-- A publish gets to its write by `end_step` only. -/
theorem writing_of_step {ops : ι → IndexOp} {t t' : FsIndex.State ι} {b : FsIndex.Label ι}
    (hs : FsIndex.step L ops t b = some t') {j : ι} {l : ℕ} {c : Contents} {p : Publish}
    {ck : Checksum} (hj : ops j = .publish p ck) (hb : b ≠ .endStep j (.ok ()))
    (hw : t'.pc j = .writing l c) : t.pc j = .writing l c := by
  have hmove : ∀ {i : ι} {pc : FsIndex.Pc}, (i = j → pc ≠ .writing l c) →
      Function.update t.pc i pc j = .writing l c → t.pc j = .writing l c := by
    intro i pc hpc
    exact FsIndex.moved_or_stayed (Q := fun pc => pc = .writing l c → _)
      (fun hij h => absurd h (hpc hij)) fun _ => id
  cases FsIndex.step_cases hs with
  | stored => exact hmove (fun hij => absurd (by rw [hij]) hb) hw
  | @pulled i l' fails hp =>
    refine hmove (fun hij => ?_) hw
    subst hij
    rw [hj]
    simp only [IndexOp.afterPull]
    cases FsIndex.publishContents L p ck _ <;> simp
  | _ => exact hmove (by simp) hw

/-- A step of the index that is not an `end_step` that succeeds. -/
theorem supplied_index (h : Supplied L sha256 reqs s) {b : FsIndex.Label ι}
    {index : FsIndex.State ι}
    (hs : FsIndex.step L (fun i => (reqs i).op sha256) s.index b = some index)
    (hb : ∀ i, b ≠ .endStep i (.ok ())) : Supplied L sha256 reqs { s with index } := by
  refine ⟨FsIndex.inv_step h.index hs, fun file c v hc hv => ?_, fun j l c json t hj hw => ?_⟩
  · rcases FsIndex.effect_step h.index hs with ⟨-, hf⟩ | ⟨i, rfl, he, -, -⟩
    · rw [hf] at hc
      exact h.entries file c v hc hv
    · rcases he.entry hc hv with ⟨c₀, v₀, hc₀, hv₀, hu⟩ | ⟨p, ck, hi, -, rfl⟩
      · rw [← entryPath_unflagged, hu, entryPath_unflagged]
        exact h.entries file c₀ v₀ hc₀ hv₀
      · cases hr : reqs i <;> simp only [hr, Request.op, reduceCtorEq, IndexOp.publish.injEq] at hi
        obtain ⟨rfl, rfl⟩ := hi
        rw [entryPath_release]
        cases FsIndex.step_cases hs with
        | put hp => exact h.writing i _ _ _ _ hr hp
  · have hop : (reqs j).op sha256 = .publish json (sha256 t) := by rw [hj]; rfl
    exact h.writing j l c json t hj (writing_of_step hs hop (hb j) hw)

/-! ## One step -/

/-- A step of a request that leaves the stores alone. -/
theorem Supplied.goTo (h : Supplied L sha256 reqs s) (i : ι) (st : Stage) :
    Supplied L sha256 reqs (s.goTo i st) := ⟨h.index, h.entries, h.writing⟩

omit [DecidableEq ι] in
theorem supplied_initial : Supplied L sha256 reqs (initial : State ι) where
  index := FsIndex.inv_initial _
  entries _ _ _ hc := by cases hc
  writing _ _ _ _ _ _ hw := by cases hw

/-- **A step that spares keeps the supply.** -/
theorem supplied_step (h : Supplied L sha256 reqs s) (ha : Spares L sha256 reqs s a)
    (hs : step L sha256 reqs s a = some s') : Supplied L sha256 reqs s' := by
  cases step_cases hs with
  | index hb hstep => exact supplied_index h hstep fun i => hb i _
  | notStored hi hstep => exact supplied_index h hstep fun i e => by cases e
  | @stored i index json t hi hstep =>
    have hkeep : ∀ path, s.bucket path ≠ none →
        Function.update s.bucket (tarballPath sha256 json t) (some t) path ≠ none := by
      exact (Function.forall_update_iff s.bucket fun path x => s.bucket path ≠ none →
        x ≠ none).mpr ⟨fun _ => Option.some_ne_none t, fun _ _ => id⟩
    refine ⟨FsIndex.inv_step h.index hstep, fun file c v hc hv => ?_, fun j l c p u hj hw => ?_⟩
    · have hf : index.files = s.index.files :=
        FsIndex.files_eq_of_step hstep fun _ e => by cases e
      simp only [hf] at hc
      exact hkeep _ (h.entries file c v hc hv)
    · by_cases hji : j = i
      · subst hji
        rw [hi] at hj
        cases hj
        simp
      · have hop : (reqs j).op sha256 = .publish p (sha256 u) := by rw [hj]; rfl
        have hne : (FsIndex.Label.endStep i (.ok ()) : FsIndex.Label ι) ≠ .endStep j (.ok ()) :=
          fun e => by cases e; exact hji rfl
        exact hkeep _ (h.writing j l c p u hj (writing_of_step hstep hop hne hw))
  | @cleaned i newFails oldFails json t e hi hst hp hstored =>
    have hclean : newFails = false → cleans sha256 reqs s (.finish i newFails oldFails) =
        some (tarballPath sha256 json t) := by
      rintro rfl
      simp only [cleans, hi, hst, hp, hstored, Bool.not_false, Bool.and_self, if_true]
    refine ⟨h.index, fun file c v hc hv => ?_, fun j l c p u hj hw => ?_⟩
    · simp only [entryPath]
      rw [S3.deleteCrate_newPath fun hf => (ha _ (hclean hf)).1 file c v hc hv]
      exact h.entries file c v hc hv
    · simp only [tarballPath]
      rw [S3.deleteCrate_newPath fun hf => (ha _ (hclean hf)).2 j l c p u hj hw]
      exact h.writing j l c p u hj hw
  | found => exact h.goTo _ _
  | answered => exact h.goTo _ _
  | pulled => exact h.goTo _ _
  | missed => exact h.goTo _ _
  | pulledOld => exact h.goTo _ _

/-! ## Runs -/

/-- **As long as every step spares, every entry has its object.** -/
theorem supplied_of_spares {labels : List (Label ι)}
    (h : Run.exec (step L sha256 reqs) initial labels = some s)
    (hspares : ∀ pre a post t, labels = pre ++ a :: post →
      Run.exec (step L sha256 reqs) initial pre = some t → Spares L sha256 reqs t a) :
    Supplied L sha256 reqs s :=
  Run.exec_invariant_of (fun _ _ _ => supplied_step) h hspares supplied_initial

/-- The request that a step which deletes is of, and what the step does. -/
theorem step_of_cleans {path : String} (h : cleans sha256 reqs s a = some path) :
    ∃ i oldFails json crateBytes e, a = .finish i false oldFails ∧
      reqs i = .publish json crateBytes ∧ s.index.pc i = .returned (.error e) ∧
      path = tarballPath sha256 json crateBytes ∧
      step L sha256 reqs s a = some { s.goTo i (.answered (.indexError e)) with
        bucket := (S3.deleteCrate false oldFails s.bucket json.name json.vers.display
          (sha256 crateBytes)).2 } := by
  cases a with
  | finish i newFails oldFails =>
    simp only [cleans] at h
    cases hi : reqs i <;> simp only [hi, reduceCtorEq] at h
    cases hst : s.stage i <;> simp only [hst, reduceCtorEq] at h
    cases hp : s.index.pc i <;> simp only [hp, reduceCtorEq] at h
    rename_i json t r
    cases r with
    | ok x => cases h
    | error e =>
      simp only at h
      split_ifs at h with hstored
      cases h
      rw [Bool.and_eq_true, Bool.not_eq_true'] at hstored
      obtain ⟨hstored, rfl⟩ := hstored
      refine ⟨i, oldFails, json, t, e, rfl, hi, hp, rfl, ?_⟩
      simp only [step, hst, hp, finish, hi, hstored, if_true]
  | _ => cases h

/-- **A step that does not spare leaves an entry without its object**, at once or by one more
step. -/
theorem broken_of_not_spares (hinv : FsIndex.Inv L (fun i => (reqs i).op sha256) s.index)
    (hs : step L sha256 reqs s a = some s') (ha : ¬ Spares L sha256 reqs s a) :
    ∃ more u, more.length ≤ 1 ∧ Run.exec (step L sha256 reqs) s' more = some u ∧
      ¬ Stocked L u := by
  simp only [Spares, not_forall] at ha
  obtain ⟨path, hclean, hbad⟩ := ha
  obtain ⟨i, oldFails, json, t, e, -, -, -, rfl, hstep⟩ := step_of_cleans (L := L) hclean
  cases hs.symm.trans hstep
  have hgone : (S3.deleteCrate false oldFails s.bucket json.name json.vers.display (sha256 t)).2
      (tarballPath sha256 json t) = none := S3.deleteCrate_self
  rw [not_and_or] at hbad
  rcases hbad with hbad | hbad
  · simp only [not_forall, ne_eq, not_not] at hbad
    obtain ⟨file, c, v, hc, hv, hpath⟩ := hbad
    refine ⟨[], _, Nat.zero_le 1, rfl, fun hstocked => hstocked file c v hc hv ?_⟩
    rw [hpath]
    exact hgone
  · simp only [not_forall, ne_eq, not_not] at hbad
    obtain ⟨j, l, c, p, u, hj, hw, hpath⟩ := hbad
    have hput : ∃ index, FsIndex.step L (fun i => (reqs i).op sha256) s.index
        (.put j false) = some index := by
      simp only [FsIndex.step, hw]
      exact ⟨_, rfl⟩
    obtain ⟨index, hput⟩ := hput
    refine ⟨[.index (.put j false)], _, le_refl 1,
      Run.exec_cons_eq_some.mpr ⟨_, by simp only [step, State.goTo, hput]; rfl, rfl⟩,
      fun hstocked => ?_⟩
    rcases FsIndex.effect_step hinv hput with ⟨hne, -⟩ | ⟨j', hj', heff, -⟩
    · exact hne j rfl
    · cases hj'
      have hop : (reqs j).op sha256 = .publish p (sha256 u) := by rw [hj]; rfl
      have h2 := heff.2
      rw [hop] at h2
      obtain ⟨entries, -, -, hafter⟩ := h2
      refine hstocked _ _ (FsIndex.release p (sha256 u)) hafter (by simp) ?_
      rw [entryPath_release, hpath]
      exact hgone

variable (L sha256 reqs) in
/-- **Every index entry has its tarball** in every state of a run whose steps all spare; and a step
that does not spare breaks this, at once or by one more step. -/
theorem stocked_of_spares :
    (∀ labels s, Run.exec (step L sha256 reqs) initial labels = some s →
      (∀ pre a post t, labels = pre ++ a :: post →
        Run.exec (step L sha256 reqs) initial pre = some t → Spares L sha256 reqs t a) →
      Stocked L s) ∧
    (∀ labels a s s', Run.exec (step L sha256 reqs) initial labels = some s →
      step L sha256 reqs s a = some s' → ¬ Spares L sha256 reqs s a →
      ∃ more u, more.length ≤ 1 ∧
        Run.exec (step L sha256 reqs) initial (labels ++ a :: more) = some u ∧
        ¬ Stocked L u) := by
  refine ⟨fun labels s h hspares => (supplied_of_spares h hspares).entries,
    fun labels a s s' h hs ha => ?_⟩
  obtain ⟨calls, hcalls⟩ := exec_index h
  obtain ⟨more, u, hlen, hu, hbroken⟩ := broken_of_not_spares (FsIndex.exec_inv hcalls) hs ha
  refine ⟨more, u, hlen, ?_, hbroken⟩
  exact Run.exec_append_eq_some.mpr ⟨s, h, Run.exec_cons_eq_some.mpr ⟨s', hs, hu⟩⟩

/-! ## When a step spares -/

variable (sha256 reqs) in
/-- If the step is a clean-up, no other request to publish under the path that it deletes is about
to write the index or has written it. -/
def Alone (s : State ι) (a : Label ι) : Prop :=
  ∀ i oldFails json crateBytes, a = .finish i false oldFails → reqs i = .publish json crateBytes →
    ∀ j p t, j ≠ i → reqs j = .publish p t →
      tarballPath sha256 p t = tarballPath sha256 json crateBytes →
      (∀ l c, s.index.pc j ≠ .writing l c) ∧ ∀ r, (s.index.pc j).result ≠ some (.ok r)

/-- **Such a step spares**: the entries are those of the requests that have written. -/
theorem spares_of_alone {labels : List (Label ι)}
    (h : Run.exec (step L sha256 reqs) initial labels = some s) (ha : Alone sha256 reqs s a) :
    Spares L sha256 reqs s a := by
  intro path hclean
  obtain ⟨i, oldFails, json, t, e, hfinish, hi, hp, rfl, -⟩ := step_of_cleans (L := L) hclean
  refine ⟨fun file c v hc hv hpath => ?_, fun j l c p u hj hw hpath => ?_⟩
  · obtain ⟨calls, hcalls⟩ := exec_index h
    obtain ⟨j, p, ck, hpublished, -, hu⟩ := FsIndex.entry_origin hcalls hc hv
    have hop := hpublished.op
    cases hj : reqs j <;> simp only [hj, Request.op, reduceCtorEq, IndexOp.publish.injEq] at hop
    obtain ⟨rfl, rfl⟩ := hop
    rw [← entryPath_unflagged, hu, entryPath_release] at hpath
    obtain ⟨r, hr⟩ := hpublished.ok
    have hji : j ≠ i := by
      rintro rfl
      rw [hp] at hr
      cases hr
    exact (ha i oldFails json t hfinish hi j _ _ hji hj hpath).2 r hr
  · have hji : j ≠ i := by
      rintro rfl
      rw [hp] at hw
      cases hw
    exact (ha i oldFails json t hfinish hi j p u hji hj hpath).1 l c hw

/-- **Requests that have a path each** keep their objects, in every run. -/
theorem stocked_of_distinct {labels : List (Label ι)}
    (hdistinct : ∀ i j p t q u, reqs i = .publish p t → reqs j = .publish q u →
      tarballPath sha256 p t = tarballPath sha256 q u → i = j)
    (h : Run.exec (step L sha256 reqs) initial labels = some s) : Stocked L s := by
  refine (supplied_of_spares h fun pre a post t _ ht => spares_of_alone ht ?_).entries
  intro i oldFails json crateBytes _ hi j p u hji hj hpath
  exact absurd (hdistinct j i p u json crateBytes hj hi hpath) hji

/-! ## A retry that loses its tarball -/

/-- Two requests publish `foo` with the tarball "abc". -/
def retried (_ : Bool) : Request := .publish foo [97, 98, 99]

/-- The index write of the first request fails, the retry succeeds. -/
def retry : List (Label Bool) :=
  [.index (.start true), .index (.acquire true), .index (.pull true false), .putCrate true false,
    .index (.put true true), .index (.release true), .index (.dropArc true),
    .index (.onUnlocked true),
    .index (.start false), .index (.acquire false), .index (.pull false false),
    .putCrate false false, .index (.put false false), .index (.release false),
    .index (.dropArc false), .index (.onUnlocked false)]

/-- The retry is answered that it is done, then the first request cleans up. -/
theorem tarball_lost_by_cleanup : ∃ s,
    Run.exec (step Libs.canonical abcHash retried) initial
      (retry ++ [.finish false false false, .finish true false false]) = some s ∧
    s.stage false = .answered .done ∧ ¬ Stocked Libs.canonical s := by
  have h : (Run.exec (step Libs.canonical abcHash retried) initial
      (retry ++ [.finish false false false, .finish true false false])).any (fun s =>
        decide ((s.index.pc false).result = some (.ok .done)) &&
        decide (s.stage false = .answered .done) &&
        (s.bucket (tarballPath abcHash foo [97, 98, 99])).isNone) = true := by
    decide +kernel
  rw [Option.any_eq_true] at h
  obtain ⟨s, hs, hfacts⟩ := h
  rw [Bool.and_eq_true, Bool.and_eq_true, decide_eq_true_eq, decide_eq_true_eq,
    Option.isNone_iff_eq_none] at hfacts
  obtain ⟨⟨hresult, hdone⟩, hgone⟩ := hfacts
  refine ⟨s, hs, hdone, fun hstocked => ?_⟩
  obtain ⟨calls, hcalls⟩ := exec_index hs
  obtain ⟨c, v, hc, hv, hu⟩ := FsIndex.entry_of_published hcalls (i := false) rfl ⟨_, hresult⟩
  refine hstocked _ c v hc hv ?_
  rw [← entryPath_unflagged, hu, entryPath_release]
  exact hgone

/-- The first request cleans up before the retry. -/
def cleanRetry : List (Label Bool) :=
  retry.take 8 ++ .finish true false false :: (retry.drop 8 ++ [.finish false false false])

/-- If the step is a clean-up, the other request has not come to write the index. -/
def otherIsEarly (s : State Bool) : Label Bool → Bool
  | .finish i _ _ =>
    match s.index.pc (!i), (s.index.pc (!i)).result with
    | .writing _ _, _ => false
    | _, some (.ok _) => false
    | _, _ => true
  | _ => true

theorem alone_of_otherIsEarly {s : State Bool} {a : Label Bool} (h : otherIsEarly s a = true) :
    Alone abcHash retried s a := by
  rintro i oldFails json crateBytes rfl - j p t hji - -
  obtain rfl : j = !i := by cases i <;> cases j <;> simp_all
  simp only [otherIsEarly] at h
  constructor
  · intro l c hpc
    simp [hpc] at h
  · intro r hr
    rw [hr] at h
    cases hpc : s.index.pc (!i) <;> simp [hpc] at h

/-- The retry keeps its tarball then. -/
theorem stocked_of_spares_retry : ∃ s,
    Run.exec (step Libs.canonical abcHash retried) initial cleanRetry = some s ∧
    s.stage true = .answered (.indexError .serviceError) ∧ s.stage false = .answered .done ∧
    Stocked Libs.canonical s := by
  have h : (Run.exec (step Libs.canonical abcHash retried) initial cleanRetry).any (fun s =>
      decide (s.stage true = .answered (.indexError .serviceError)) &&
      decide (s.stage false = .answered .done)) = true := by
    decide +kernel
  simp only [Option.any_eq_true, Bool.and_eq_true, decide_eq_true_eq] at h
  obtain ⟨s, hs, hfailed, hdone⟩ := h
  have hearly : ∀ k < cleanRetry.length, (cleanRetry[k]?).all (fun a =>
      (Run.exec (step Libs.canonical abcHash retried) initial (cleanRetry.take k)).all
        fun t => otherIsEarly t a) = true := by
    decide +kernel
  refine ⟨s, hs, hfailed, hdone, (stocked_of_spares Libs.canonical abcHash retried).1 _ s hs ?_⟩
  intro pre a post t he ht
  refine spares_of_alone ht (alone_of_otherIsEarly ?_)
  have hk := hearly pre.length (by rw [he]; simp)
  rw [he, List.take_left, ht] at hk
  simpa using hk

end Server

end Freighter
