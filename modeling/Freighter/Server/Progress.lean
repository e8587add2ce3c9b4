import Freighter.FsIndex.Progress
import Freighter.Server.Machine
import Mathlib.Algebra.Order.BigOperators.Group.Finset

/-!
# Every request is answered

* `State.left`: how many steps a request has left at most; **`advance`**: a step takes its request
  on, in its index call or after it;
* `Steady`: what holds along a run; **`exists_step`**: a request that has no answer can go on, or a
  request on the same crate can.
* **`answers_every_request`**: no run goes on for ever or gets stuck, and requests wait for
  requests on the same crate only.
-/

namespace Freighter

namespace Server

/-- How many steps a request has left at most when its index call has returned. -/
def Stage.left : Stage → ℕ
  | .running => 3
  | .fetching _ => 2
  | .fallingBack _ _ => 1
  | .answered _ => 0

/-- The request that makes the step. -/
def Label.request {ι : Type} : Label ι → ι
  | .index a => a.call
  | .putCrate i _ => i
  | .finish i _ _ => i
  | .pullNew i _ => i
  | .pullOld i _ => i

/-- The crate of a request. -/
def Request.key (r : Request) : String :=
  match r with
  | .publish json _ => toAsciiLowercase json.name
  | .yank crateName _ _ => toAsciiLowercase crateName
  | .download name _ => toAsciiLowercase name

/-- The request is a download. -/
def Request.IsDownload (r : Request) : Prop := ∃ name version, r = .download name version

/-- The tarball is being fetched. -/
def Stage.Fetches (st : Stage) : Prop :=
  (∃ c, st = .fetching c) ∨ ∃ c err, st = .fallingBack c err

variable {ι : Type} [DecidableEq ι] {L : Libs} {sha256 : Bytes → Checksum} {reqs : ι → Request}
  {s s' : State ι} {a : Label ι} {i : ι}

omit [DecidableEq ι] in
theorem key_op (r : Request) : (r.op sha256).key = r.key := by
  cases r <;> rfl

omit [DecidableEq ι] in
/-- How many steps a request has left at most. -/
def State.left (s : State ι) (i : ι) : ℕ := (s.index.pc i).left + (s.stage i).left

/-! ## One step -/

/-- What a step does to a request whose index call has returned. -/
structure Later (reqs : ι → Request) (s : State ι) (i : ι) (s' : State ι) : Prop where
  index : s'.index = s.index
  stage : ∃ st, s'.stage = Function.update s.stage i st ∧ st.left < (s.stage i).left ∧
    (st.Fetches → (reqs i).IsDownload)

theorem later_goTo {st : Stage} {b : S3.Bucket} (hlt : st.left < (s.stage i).left)
    (hst : st.Fetches → (reqs i).IsDownload) :
    Later reqs s i { s.goTo i st with bucket := b } :=
  ⟨rfl, st, rfl, hlt, hst⟩

theorem later_answered {r : Reply} {b : S3.Bucket} (hlt : 0 < (s.stage i).left) :
    Later reqs s i { s.goTo i (.answered r) with bucket := b } :=
  later_goTo hlt fun h => by rcases h with ⟨c, hc⟩ | ⟨c, err, hc⟩ <;> cases hc

theorem later_finish {newFails oldFails : Bool} {r : FsIndex.Outcome}
    (hst : s.stage i = .running) (h : finish sha256 reqs s i newFails oldFails r = some s') :
    Later reqs s i s' := by
  have hlt : 0 < (s.stage i).left := by rw [hst]; decide
  cases hi : reqs i with
  | publish json crateBytes =>
    cases r with
    | ok x =>
      simp only [finish, hi] at h
      cases h
      exact later_answered hlt
    | error e =>
      simp only [finish, hi] at h
      split_ifs at h <;> cases h <;> exact later_answered hlt
  | yank name version flag =>
    cases r <;> simp only [finish, hi] at h <;> cases h <;> exact later_answered hlt
  | download name version =>
    rcases r with e | _ | e <;> simp only [finish, hi, reduceCtorEq] at h
    · cases h
      exact later_answered hlt
    · cases h
      exact later_goTo (by rw [hst]; simp [Stage.left]) fun _ => ⟨name, version, hi⟩

/-- **A step takes its request on**, in its index call or after it. -/
theorem advance (h : step L sha256 reqs s a = some s') :
    (s'.stage = s.stage ∧ ∃ b : FsIndex.Label ι, b.call = a.request ∧
      FsIndex.step L (fun i => (reqs i).op sha256) s.index b = some s'.index) ∨
      Later reqs s a.request s' := by
  cases a with
  | index a =>
    cases a with
    | endStep i r => cases h
    | _ =>
      obtain ⟨index, hb, rfl⟩ := Option.map_eq_some_iff.mp h
      exact Or.inl ⟨rfl, _, rfl, hb⟩
  | putCrate i fails =>
    simp only [step] at h
    cases hi : reqs i <;> simp only [hi, reduceCtorEq] at h
    cases fails <;>
      · obtain ⟨index, hb, rfl⟩ := Option.map_eq_some_iff.mp h
        exact Or.inl ⟨rfl, .endStep i _, rfl, hb⟩
  | finish i newFails oldFails =>
    simp only [step] at h
    cases hst : s.stage i <;> simp only [hst, reduceCtorEq] at h
    cases hp : s.index.pc i <;> simp only [hp, reduceCtorEq] at h
    exact Or.inr (later_finish hst h)
  | pullNew i fails =>
    simp only [step] at h
    cases hi : reqs i <;> simp only [hi, reduceCtorEq] at h
    cases hst : s.stage i <;> simp only [hst, reduceCtorEq] at h
    rename_i name version c
    cases hd : S3.pullObject fails s.bucket (S3.newPath name version.display c) with
    | ok d =>
      rw [hd] at h
      cases h
      exact Or.inr (later_answered (by rw [Label.request, hst]; simp [Stage.left]))
    | error e =>
      rw [hd] at h
      cases h
      exact Or.inr (later_goTo (by rw [Label.request, hst]; simp [Stage.left]) fun _ =>
        ⟨name, version, hi⟩)
  | pullOld i fails =>
    simp only [step] at h
    cases hi : reqs i <;> simp only [hi, reduceCtorEq] at h
    cases hst : s.stage i <;> simp only [hst, reduceCtorEq] at h
    rename_i name version c firstErr
    have hlt : 0 < (s.stage i).left := by rw [hst]; simp [Stage.left]
    cases hd : S3.pullObject fails s.bucket (S3.oldPath name version.display) with
    | ok d =>
      rw [hd] at h
      cases h
      exact Or.inr (later_answered hlt)
    | error e =>
      rw [hd] at h
      cases h
      exact Or.inr (later_answered hlt)

/-- **The request of a step has fewer steps left**, the others as many as before. -/
theorem left_step (h : step L sha256 reqs s a = some s') :
    s'.left a.request < s.left a.request ∧ ∀ j, j ≠ a.request → s'.left j = s.left j := by
  rcases advance h with ⟨hstage, b, hb, hs⟩ | ⟨hindex, st, hstage, hlt, -⟩
  · obtain ⟨hlt, hother⟩ := FsIndex.left_step hs
    simp only [State.left, hstage]
    rw [← hb]
    exact ⟨Nat.add_lt_add_right hlt _, fun j hj => by rw [hother j hj]⟩
  · simp only [State.left, hindex, hstage]
    refine ⟨Nat.add_lt_add_left (by rwa [Function.update_self]) _, fun j hj => ?_⟩
    rw [Function.update_of_ne hj]

/-! ## The invariant -/

omit [DecidableEq ι] in
variable (L sha256 reqs) in
/-- What holds along a run. -/
structure Steady (s : State ι) : Prop where
  index : FsIndex.Inv L (fun i => (reqs i).op sha256) s.index
  tidy : FsIndex.LockMap.Tidy (fun i => ((reqs i).op sha256).key) FsIndex.keyPath
    (s.index.lockMap fun i => (reqs i).op sha256)
  planned : ∀ i l c, s.index.pc i = .planned l c → ∃ p ck, (reqs i).op sha256 = .publish p ck
  found : ∀ i, ((reqs i).op sha256).mode = .read →
    (s.index.pc i).result ≠ some (.ok .done)
  fetches : ∀ i, (s.stage i).Fetches → (reqs i).IsDownload

omit [DecidableEq ι] in
theorem steady_initial : Steady L sha256 reqs (initial : State ι) where
  index := FsIndex.inv_initial _
  tidy := FsIndex.LockMap.tidy_initial
  planned _ _ _ h := by cases h
  found _ _ h := by cases h
  fetches _ h := by rcases h with ⟨c, hc⟩ | ⟨c, err, hc⟩ <;> cases hc

theorem steady_step (h : Steady L sha256 reqs s) (hs : step L sha256 reqs s a = some s') :
    Steady L sha256 reqs s' := by
  rcases advance hs with ⟨hstage, b, -, hb⟩ | ⟨hindex, st, hstage, -, hst⟩
  · exact
      { index := FsIndex.inv_step h.index hb
        tidy := FsIndex.tidy_of_step h.tidy hb
        planned := fun i l c => FsIndex.publish_of_planned hb h.planned
        found := fun i => FsIndex.result_of_read h.index hb h.found
        fetches := by rw [hstage]; exact h.fetches }
  · refine ⟨by rw [hindex]; exact h.index, by rw [hindex]; exact h.tidy,
      by rw [hindex]; exact h.planned, by rw [hindex]; exact h.found, fun i hi => ?_⟩
    rw [hstage] at hi
    by_cases he : i = a.request
    · rw [he, Function.update_self] at hi
      rw [he]
      exact hst hi
    · rw [Function.update_of_ne he] at hi
      exact h.fetches i hi

/-! ## Progress -/

theorem step_index {b : FsIndex.Label ι} (hb : ∀ i r, b ≠ .endStep i r) :
    step L sha256 reqs s (.index b) =
      (FsIndex.step L (fun i => (reqs i).op sha256) s.index b).map fun index =>
        { s with index } := by
  cases b with
  | endStep i r => exact absurd rfl (hb i r)
  | _ => rfl

/-- A step of the index calls is enabled on the server too, with `put_crate` for `end_step`. -/
theorem exists_step_of_index (h : Steady L sha256 reqs s) {b : FsIndex.Label ι}
    {index : FsIndex.State ι}
    (hb : FsIndex.step L (fun i => (reqs i).op sha256) s.index b = some index) :
    ∃ a s', a.request = b.call ∧ step L sha256 reqs s a = some s' := by
  by_cases he : ∃ i r, b = .endStep i r
  · obtain ⟨i, r, rfl⟩ := he
    cases hp : s.index.pc i <;> simp only [FsIndex.step, hp, reduceCtorEq] at hb
    rename_i l c
    obtain ⟨p, ck, hop⟩ := h.planned i l c hp
    cases hi : reqs i with
    | publish json crateBytes =>
      refine ⟨.putCrate i true,
        { s with index := s.index.move i (.leaving l (.error .serviceError)) },
        rfl, ?_⟩
      simp only [step, hi, S3.putCrate, S3.putObject, if_true, FsIndex.step, hp, Option.map_some]
    | _ =>
      rw [hi] at hop
      cases hop
  · refine ⟨.index b, { s with index }, rfl, ?_⟩
    rw [step_index fun i r hb => he ⟨i, r, hb⟩, hb, Option.map_some]

/-- A request whose index call has returned can go on. -/
theorem exists_step_of_returned (h : Steady L sha256 reqs s) {r : FsIndex.Outcome}
    (hr : s.index.pc i = .returned r) (hi : ∀ r, s.stage i ≠ .answered r) :
    ∃ a s', a.request = i ∧ step L sha256 reqs s a = some s' := by
  cases hst : s.stage i with
  | running =>
    have hfinish : ∃ s', finish sha256 reqs s i true true r = some s' := by
      cases hq : reqs i with
      | publish json crateBytes =>
        cases r <;> simp only [finish, hq]
        · split_ifs <;> exact ⟨_, rfl⟩
        · exact ⟨_, rfl⟩
      | yank name version flag =>
        cases r <;> simp only [finish, hq] <;> exact ⟨_, rfl⟩
      | download name version =>
        have hdone : r ≠ .ok .done := fun he => by
          refine h.found i (by rw [hq]; rfl) ?_
          rw [hr, he]
          rfl
        rcases r with e | _ | e
        · exact ⟨_, by simp only [finish, hq]; rfl⟩
        · exact absurd rfl hdone
        · exact ⟨_, by simp only [finish, hq]; rfl⟩
    obtain ⟨s', hs⟩ := hfinish
    exact ⟨.finish i true true, s', rfl, by simp only [step, hst, hr, hs]⟩
  | fetching c =>
    obtain ⟨name, version, hq⟩ := h.fetches i (Or.inl ⟨c, hst⟩)
    exact ⟨.pullNew i true, _, rfl, by simp only [step, hst, hq, S3.pullObject]; rfl⟩
  | fallingBack c err =>
    obtain ⟨name, version, hq⟩ := h.fetches i (Or.inr ⟨c, err, hst⟩)
    exact ⟨.pullOld i true, _, rfl, by simp only [step, hst, hq, S3.pullObject]; rfl⟩
  | answered r => exact absurd hst (hi r)

/-- **A request that has no answer can go on**, or a request on the same crate can. -/
theorem exists_step (h : Steady L sha256 reqs s) (hi : ∀ r, s.stage i ≠ .answered r) :
    ∃ a s', (reqs a.request).key = (reqs i).key ∧ step L sha256 reqs s a = some s' := by
  by_cases hr : ∃ r, s.index.pc i = .returned r
  · obtain ⟨r, hr⟩ := hr
    obtain ⟨a, s', ha, hs⟩ := exists_step_of_returned h hr hi
    exact ⟨a, s', by rw [ha], hs⟩
  · obtain ⟨b, t, hkey, hb⟩ := FsIndex.exists_step h.index fun r hp => hr ⟨r, hp⟩
    rw [key_op, key_op] at hkey
    obtain ⟨a, s', ha, hs⟩ := exists_step_of_index h hb
    exact ⟨a, s', by rw [ha, hkey], hs⟩

/-! ## Runs -/

section Runs

variable [Fintype ι]

/-- How many steps all requests have left at most. -/
def State.work (s : State ι) : ℕ := ∑ i, s.left i

theorem work_step (hs : step L sha256 reqs s a = some s') : s'.work < s.work := by
  obtain ⟨hlt, hother⟩ := left_step hs
  refine Finset.sum_lt_sum (fun j _ => ?_) ⟨a.request, Finset.mem_univ _, hlt⟩
  by_cases hj : j = a.request
  · rw [hj]
    exact hlt.le
  · exact (hother j hj).le

omit [DecidableEq ι] in
theorem work_initial : (initial : State ι).work = 11 * Fintype.card ι := by
  change ∑ _i : ι, 11 = _
  rw [Finset.sum_const, Finset.card_univ, Nat.nsmul_eq_mul, Nat.mul_comm]

/-- **Every request is answered.** Whatever the order of the steps and whatever fails, a run takes
at most eleven steps a request. From every state of a run, each request can be brought to its
answer by steps of requests on the same crate alone; and where no step is left all requests have
their answers and no lock is left in the map. -/
theorem answers_every_request (L : Libs) (sha256 : Bytes → Checksum) (reqs : ι → Request)
    (labels : List (Label ι)) (s : State ι)
    (h : Run.exec (step L sha256 reqs) initial labels = some s) :
    labels.length ≤ 11 * Fintype.card ι ∧
    (∀ i, ∃ more s', (∀ a ∈ more, (reqs a.request).key = (reqs i).key) ∧
      Run.exec (step L sha256 reqs) s more = some s' ∧ ∃ r, s'.stage i = .answered r) ∧
    ((∀ a, step L sha256 reqs s a = none) →
      (∀ i, ∃ r, s.stage i = .answered r) ∧ ∀ key, s.index.locks.locks key = none) := by
  have hkeeps : ∀ (t : State ι) a t', Steady L sha256 reqs t →
      step L sha256 reqs t a = some t' → Steady L sha256 reqs t' := fun _ _ _ => steady_step
  have hwork : ∀ (t : State ι) a t', Steady L sha256 reqs t →
      step L sha256 reqs t a = some t' → t'.work < t.work := fun _ _ _ _ => work_step
  have hs : Steady L sha256 reqs s := Run.exec_invariant hkeeps h steady_initial
  refine ⟨?_, fun i => ?_, fun hstuck => ?_⟩
  · have hlen := Run.length_add_le_of_exec hkeeps hwork h steady_initial
    rw [work_initial] at hlen
    omega
  · exact Run.exists_exec_of_progress hkeeps hwork
      (P := fun a => (reqs a.request).key = (reqs i).key)
      (Q := fun t => ∃ r, t.stage i = .answered r)
      (fun t ht hi => exists_step ht fun r hr => hi ⟨r, hr⟩) hs
  · have hnone : ∀ a s', step L sha256 reqs s a ≠ some s' := fun a s' ha => by
      rw [hstuck a] at ha
      cases ha
    refine ⟨fun i => ?_, hs.tidy.empty fun i => ?_⟩
    · by_contra hi
      obtain ⟨a, s', -, ha⟩ := exists_step hs fun r hr => hi ⟨r, hr⟩
      exact hnone a s' ha
    · have hret : ∃ r, s.index.pc i = .returned r := by
        by_contra hi
        obtain ⟨b, t, -, hb⟩ := FsIndex.exists_step hs.index fun r hr => hi ⟨r, hr⟩
        obtain ⟨a, s', -, ha⟩ := exists_step_of_index hs hb
        exact hnone a s' ha
      obtain ⟨r, hr⟩ := hret
      change (s.index.pc i).lockUser _ = _
      rw [hr]
      rfl

end Runs

/-- A download waits for the lock that a publish of its crate holds, and gets its answer. -/
theorem answers_every_request_waiting :
    let reqs : Bool → Request := fun i =>
      bif i then .publish foo [97, 98, 99] else .download "Foo" (Version.new 0 0 0)
    let labels : List (Label Bool) := [.index (.start true), .index (.acquire true),
      .index (.start false), .index (.pull true false)]
    ∃ s, Run.exec (step Libs.canonical abcHash reqs) initial labels = some s ∧
      ∃ more s', (∀ a ∈ more, (reqs a.request).key = "foo") ∧
        Run.exec (step Libs.canonical abcHash reqs) s more = some s' ∧
        ∃ r, s'.stage false = .answered r := by
  intro reqs labels
  have h : (Run.exec (step Libs.canonical abcHash reqs) initial labels).isSome = true := by
    decide +kernel
  obtain ⟨s, hs⟩ := Option.isSome_iff_exists.mp h
  obtain ⟨more, s', hkey, hmore⟩ :=
    (answers_every_request Libs.canonical abcHash reqs labels s hs).2.1 false
  exact ⟨s, hs, more, s', fun a ha => (hkey a ha).trans (by decide), hmore⟩

end Server

end Freighter
