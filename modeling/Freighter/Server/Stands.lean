import Freighter.Lib.Linearize
import Freighter.Server.AtOnce
import Freighter.Server.Progress

/-!
# Concurrent requests, step by step

What the stores are to the registry while requests are being answered, and that each step either
leaves the registry or takes one request on it.

* `State.decided`: the answer of a request, from the step on that decides it;
* `Stands`: what the stores and the requests are to a registry;
* **`simulates_step`**: a step that does not lose the index write of a publish.
-/

namespace Freighter

namespace Server

open FsIndex (IndexOp Contents accessCrate CrateMetaPath pullFile)
open Registry (Represents find)
open Routes (Failure)

/-! ## When an answer is decided -/

/-- What the result of its index call decides of a request. -/
def Request.decided (r : Request) : Option FsIndex.Outcome → Option Reply
  | none => none
  | some (.error e) => some (.indexError e)
  | some (.ok _) =>
    match r with
    | .download _ _ => none
    | _ => some .done

/-- The same, after the index call. -/
def Stage.decided (early : Option Reply) : Stage → Option Reply
  | .running => early
  | .fetching _ => none
  | .fallingBack _ firstErr => some (.storageError firstErr)
  | .answered r => some r

/-- The answer of a request, from the step on that decides it. -/
def State.decided {ι : Type} (reqs : ι → Request) (s : State ι) (i : ι) : Option Reply :=
  (s.stage i).decided ((reqs i).decided (s.index.pc i).result)

/-- What fails in a step. -/
def Label.faults {ι : Type} : Label ι → Faults
  | .index (.pull _ fails) => { readIndex := fails }
  | .index (.put _ fails) => { writeIndex := fails }
  | .putCrate _ fails => { storeTarball := fails }
  | .pullNew _ fails => { fetchTarball := fails }
  | _ => {}

/-- The step is a failed index write of a publish. -/
def LosesWrite {ι : Type} (reqs : ι → Request) (a : Label ι) : Prop :=
  ∃ i json crateBytes, reqs i = .publish json crateBytes ∧ a = .index (.put i true)

variable {ι : Type} [DecidableEq ι]

/-! ## What the stores are to a registry -/

section Stands

variable (L : Libs) (sha256 : Bytes → Checksum) (reqs : ι → Request)

omit [DecidableEq ι] in
/-- The tarball of a request that is about to write the index. -/
def Pending (s : State ι) (path : String) : Prop :=
  ∃ j l c json crateBytes, reqs j = .publish json crateBytes ∧ s.index.pc j = .writing l c ∧
    path = tarballPath sha256 json crateBytes

/-- The stores are those of the registry, and of the requests that are about to write; a download
has found a release. -/
structure Stands (s : State ι) (reg : Registry) : Prop where
  index : FsIndex.Inv L (fun i => (reqs i).op sha256) s.index
  served : Served sha256 reqs s
  stores : ∃ bucket, Represents L sha256 s.index.files bucket reg ∧
    ∀ path, ¬ Pending sha256 reqs s path → s.bucket path = bucket path
  pending : ∀ j l c json crateBytes, reqs j = .publish json crateBytes →
    s.index.pc j = .writing l c → s.bucket (tarballPath sha256 json crateBytes) = some crateBytes
  running : ∀ i, s.stage i = .running ∨ ∃ r, s.index.pc i = .returned r
  stored : ∀ i, s.storedCrate i = true → (∃ json crateBytes, reqs i = .publish json crateBytes) ∧
    ((∃ l c, s.index.pc i = .writing l c) ∨ ∃ r, (s.index.pc i).result = some (.ok r))
  found : ∀ i name version e, reqs i = .download name version →
    (s.index.pc i).result = some (.ok (.found e)) → Has reg name version e.tarballChecksum

end Stands

/-! ## Steps of the index calls -/

section Calls

variable {L : Libs} {ops : ι → IndexOp} {t t' : FsIndex.State ι} {b : FsIndex.Label ι} {j : ι}

/-- A call that is about to write is so until it does. -/
theorem writing_stays (hs : FsIndex.step L ops t b = some t') {l : ℕ} {c : Contents}
    (hw : t.pc j = .writing l c) (hb : ∀ fails, b ≠ .put j fails) : t'.pc j = .writing l c := by
  have hmove : ∀ {i : ι} {pc pc' : FsIndex.Pc}, t.pc i = pc' → (i = j → pc' ≠ .writing l c) →
      Function.update t.pc i pc j = .writing l c := by
    intro i pc pc' hi hne
    refine FsIndex.moved_or_stayed (Q := fun pc => pc = .writing l c) (fun hij => ?_) fun _ => hw
    exact absurd (hi.symm.trans (hij ▸ hw)) (hne hij)
  cases FsIndex.step_cases hs with
  | put hp => exact hmove hp fun hij => absurd (by rw [hij]) (hb false)
  | notPut hp => exact hmove hp fun hij => absurd (by rw [hij]) (hb true)
  | refused hp => exact hmove hp fun _ => by simp
  | looked hp => exact hmove hp fun _ => by simp
  | acquired hp => exact hmove hp fun _ => by simp
  | pulled hp => exact hmove hp fun _ => by simp
  | stored hp => exact hmove hp fun _ => by simp
  | notStored hp => exact hmove hp fun _ => by simp
  | released hp => exact hmove hp fun _ => by simp
  | dropped hp => exact hmove hp fun _ => by simp
  | finished hp => exact hmove hp fun _ => by simp

/-- A result stays. -/
theorem result_stays (hs : FsIndex.step L ops t b = some t') {r : FsIndex.Outcome}
    (hr : (t.pc j).result = some r) : (t'.pc j).result = some r := by
  have hmove : ∀ {i : ι} {pc pc' : FsIndex.Pc}, t.pc i = pc' →
      (pc'.result = some r → pc.result = some r) →
      (Function.update t.pc i pc j).result = some r := by
    intro i pc pc' hi hpc
    refine FsIndex.moved_or_stayed (Q := fun pc => pc.result = some r) (fun hij => ?_) fun _ => hr
    exact hpc (by rw [← hi, hij, hr])
  cases FsIndex.step_cases hs with
  | refused hp => exact hmove hp fun h => nomatch h
  | looked hp => exact hmove hp fun h => nomatch h
  | acquired hp => exact hmove hp fun h => nomatch h
  | pulled hp => exact hmove hp fun h => nomatch h
  | stored hp => exact hmove hp fun h => nomatch h
  | notStored hp => exact hmove hp fun h => nomatch h
  | put hp => exact hmove hp fun h => nomatch h
  | notPut hp => exact hmove hp fun h => nomatch h
  | released hp => exact hmove hp id
  | dropped hp => exact hmove hp id
  | finished hp => exact hmove hp id

/-- What a call finds it finds when it pulls. -/
theorem found_of_step (hs : FsIndex.step L ops t b = some t') {e : CrateVersionExists}
    (hr : (t'.pc j).result = some (.ok (.found e))) :
    (t.pc j).result = some (.ok (.found e)) ∨ ∃ fails, b = .pull j fails := by
  have hmove : ∀ {i : ι} {pc pc' : FsIndex.Pc}, t.pc i = pc' →
      (Function.update t.pc i pc j).result = some (.ok (.found e)) →
      (pc.result = some (.ok (.found e)) → pc'.result = some (.ok (.found e))) →
      (t.pc j).result = some (.ok (.found e)) := by
    intro i pc pc' hi h hpc
    refine FsIndex.moved_or_stayed (Q := fun pc => pc.result = _ → _) (fun hij h => ?_)
      (fun _ => id) h
    rw [← hij, hi]
    exact hpc h
  cases FsIndex.step_cases hs with
  | @pulled i l fails hp =>
    by_cases hij : i = j
    · exact Or.inr ⟨fails, by rw [hij]⟩
    · exact Or.inl (by simpa [FsIndex.State.move, Function.update_of_ne (Ne.symm hij)] using hr)
  | refused hp => exact Or.inl (hmove hp hr (by simp [FsIndex.Pc.result]))
  | looked hp => exact Or.inl (hmove hp hr id)
  | acquired hp => exact Or.inl (hmove hp hr id)
  | stored hp => exact Or.inl (hmove hp hr id)
  | notStored hp => exact Or.inl (hmove hp hr (by simp [FsIndex.Pc.result]))
  | put hp => exact Or.inl (hmove hp hr (by simp [FsIndex.Pc.result]))
  | notPut hp => exact Or.inl (hmove hp hr (by simp [FsIndex.Pc.result]))
  | released hp => exact Or.inl (hmove hp hr id)
  | dropped hp => exact Or.inl (hmove hp hr id)
  | finished hp => exact Or.inl (hmove hp hr id)

end Calls

section Steps

variable {L : Libs} {sha256 : Bytes → Checksum} {reqs : ι → Request} {s s' : State ι}
  {reg reg' : Registry} {b : FsIndex.Label ι} {index : FsIndex.State ι} {i : ι}

/-- A step of the index calls, and the answer that it decides. -/
theorem decided_move {pc : FsIndex.Pc} (hstage : s'.stage = s.stage)
    (hpc : s'.index.pc = Function.update s.index.pc i pc) (hrunning : s.stage i = .running) :
    s'.decided reqs = Function.update (s.decided reqs) i ((reqs i).decided pc.result) := by
  funext j
  rcases eq_or_ne j i with rfl | hj
  · rw [Function.update_self, State.decided, hstage, hpc, hrunning, Function.update_self]
    rfl
  · rw [Function.update_of_ne hj, State.decided, State.decided, hstage, hpc,
      Function.update_of_ne hj]

variable (reqs s i) in
/-- A step after the index call. -/
theorem decided_goTo (st : Stage) : (s.goTo i st).decided reqs =
    Function.update (s.decided reqs) i (st.decided ((reqs i).decided (s.index.pc i).result)) := by
  funext j
  rcases eq_or_ne j i with rfl | hj
  · simp only [State.decided, State.goTo, Function.update_self]
  · simp only [State.decided, State.goTo, Function.update_of_ne hj]

omit [DecidableEq ι] in
theorem op_publish {json : Publish} {crateBytes : Bytes} (h : reqs i = .publish json crateBytes) :
    (reqs i).op sha256 = .publish json (sha256 crateBytes) := by
  rw [h]
  rfl

namespace Stands

/-- What is stored, after a step of the index calls. -/
theorem stored_step (h : Stands L sha256 reqs s reg)
    (hs : FsIndex.step L (fun i => (reqs i).op sha256) s.index b = some index)
    (hlose : ¬ LosesWrite reqs (.index b)) (hi : s.storedCrate i = true) :
    (∃ json crateBytes, reqs i = .publish json crateBytes) ∧
      ((∃ l c, index.pc i = .writing l c) ∨ ∃ r, (index.pc i).result = some (.ok r)) := by
  obtain ⟨⟨json, crateBytes, hr⟩, hpc⟩ := h.stored i hi
  refine ⟨⟨json, crateBytes, hr⟩, ?_⟩
  rcases hpc with ⟨l, c, hw⟩ | ⟨r, hok⟩
  · by_cases hb : ∃ fails, b = .put i fails
    · obtain ⟨fails, rfl⟩ := hb
      cases fails with
      | true => exact absurd ⟨i, json, crateBytes, hr, rfl⟩ hlose
      | false => exact Or.inr ⟨_, (FsIndex.result_put hs).2⟩
    · exact Or.inl ⟨l, c, writing_stays hs hw fun fails e => hb ⟨fails, e⟩⟩
  · exact Or.inr ⟨r, result_stays hs hok⟩

/-- A step of the index calls, which may be a step of the registry. -/
theorem index_step (h : Stands L sha256 reqs s reg)
    (hs : FsIndex.step L (fun i => (reqs i).op sha256) s.index b = some index)
    (hb : ∀ i, b ≠ .endStep i (.ok ())) (hlose : ¬ LosesWrite reqs (.index b))
    (hkeep : ∀ name version c, Has reg name version c → Has reg' name version c)
    (hstores : ∃ bucket, Represents L sha256 index.files bucket reg' ∧
      ∀ path, ¬ Pending sha256 reqs { s with index } path → s.bucket path = bucket path)
    (hfound : ∀ j fails name version e, b = .pull j fails → reqs j = .download name version →
      (index.pc j).result = some (.ok (.found e)) → Has reg' name version e.tarballChecksum) :
    Stands L sha256 reqs { s with index } reg' where
  index := FsIndex.inv_step h.index hs
  served := h.served.index hs
  stores := hstores
  pending j l c json crateBytes hj hw :=
    h.pending j l c json crateBytes hj (writing_of_step hs (op_publish hj) (hb j) hw)
  running j := (h.running j).imp_right fun ⟨r, hr⟩ => ⟨r, returned_step hs hr⟩
  stored j hj := h.stored_step hs hlose hj
  found j name version e hj hr := by
    rcases found_of_step hs hr with hr | ⟨fails, rfl⟩
    · exact hkeep _ _ _ (h.found j name version e hj hr)
    · exact hfound j fails name version e rfl hj hr

/-- A step of the index calls that leaves the files. -/
theorem index_quiet (h : Stands L sha256 reqs s reg)
    (hs : FsIndex.step L (fun i => (reqs i).op sha256) s.index b = some index)
    (hb : ∀ i, b ≠ .endStep i (.ok ())) (hfiles : index.files = s.index.files)
    (hput : ∀ j json crateBytes, reqs j = .publish json crateBytes → ∀ fails, b ≠ .put j fails)
    (hfound : ∀ j fails name version e, b = .pull j fails → reqs j = .download name version →
      (index.pc j).result = some (.ok (.found e)) → Has reg name version e.tarballChecksum) :
    Stands L sha256 reqs { s with index } reg := by
  obtain ⟨bucket, hrep, hbucket⟩ := h.stores
  have hlose : ¬ LosesWrite reqs (.index b) := by
    rintro ⟨j, json, crateBytes, hj, e⟩
    cases e
    exact hput j json crateBytes hj true rfl
  refine h.index_step hs hb hlose (fun _ _ _ => id) ⟨bucket, hfiles ▸ hrep, fun path hpath => ?_⟩
    hfound
  refine hbucket path fun ⟨j, l, c, json, crateBytes, hj, hw, hp⟩ => hpath ?_
  exact ⟨j, l, c, json, crateBytes, hj, writing_stays hs hw (hput j json crateBytes hj), hp⟩

end Stands

variable {a : Label ι} {pc : FsIndex.Pc}

variable (L sha256 reqs) in
/-- The step is silent, or it is the request at once. -/
abbrev StepSimulates (s s' : State ι) (reg : Registry) (a : Label ι) : Prop :=
  Run.Simulates (State.decided reqs) Label.request Label.faults (atOnce sha256 reqs)
    (Stands L sha256 reqs) s s' reg a

namespace Stands

omit [DecidableEq ι] in
theorem running_of_unreturned (h : Stands L sha256 reqs s reg)
    (hpc : ∀ r, s.index.pc i ≠ .returned r) : s.stage i = .running := by
  rcases h.running i with hi | ⟨r, hr⟩
  · exact hi
  · exact absurd hr (hpc r)

theorem silent_move (h : Stands L sha256 reqs s reg) (h' : Stands L sha256 reqs s' reg)
    (hstage : s'.stage = s.stage) (hpc : s'.index.pc = Function.update s.index.pc i pc)
    (hnot : ∀ r, s.index.pc i ≠ .returned r)
    (hsame : (reqs i).decided pc.result = (reqs i).decided (s.index.pc i).result) :
    StepSimulates L sha256 reqs s s' reg a := by
  have hrunning := h.running_of_unreturned hnot
  refine .silent h' ?_
  rw [decided_move hstage hpc hrunning, hsame]
  have hi : s.decided reqs i = (reqs i).decided (s.index.pc i).result := by
    rw [State.decided, hrunning, Stage.decided]
  rw [← hi, Function.update_eq_self]

theorem effect_move (h : Stands L sha256 reqs s reg) (i : ι) (hi : a.request = i)
    (hstage : s'.stage = s.stage) (hpc : s'.index.pc = Function.update s.index.pc i pc)
    (hnot : ∀ r, s.index.pc i ≠ .returned r) (hopen : (s.index.pc i).result = none) {reply : Reply}
    (hreply : (reqs i).decided pc.result = some reply)
    (happly : (reqs i).apply sha256 a.faults reg = (reply, reg'))
    (h' : Stands L sha256 reqs s' reg') : StepSimulates L sha256 reqs s s' reg a := by
  have hrunning := h.running_of_unreturned hnot
  subst hi
  refine .effect ?_ ?_ ?_
  · rw [State.decided, hrunning, Stage.decided, hopen]
    rfl
  · rw [atOnce, happly]
    exact h'
  · rw [decided_move hstage hpc hrunning, hreply, atOnce, happly]

omit [DecidableEq ι] in
/-- What a call that holds its lock reads. -/
theorem read_eq (h : Stands L sha256 reqs s reg) {l : ℕ} {k : FsIndex.Mode}
    (hl : (s.index.pc i).hold ((reqs i).op sha256).mode = some (l, k)) :
    ∃ m, accessCrate ((reqs i).op sha256).crateName = .ok m ∧
      (s.index.locks.lock l).object = m.relPath ∧ ((reqs i).op sha256).relPath = m.relPath := by
  obtain ⟨m, hm⟩ := h.index.allowed i _ hl
  have hpath := (IndexOp.accessCrate_eq hm).2
  exact ⟨m, hm, (h.index.object_eq hl).trans hpath.symm, hpath.symm⟩

/-- **A pull.** -/
theorem simulates_pull (h : Stands L sha256 reqs s reg) {l : ℕ} {fails : Bool}
    (hp : s.index.pc i = .holding l)
    (hs : FsIndex.step L (fun i => (reqs i).op sha256) s.index (.pull i fails) = some index)
    (hindex : index = s.index.move i (((reqs i).op sha256).afterPull L l
      (pullFile fails s.index.files (s.index.locks.lock l).object))) :
    StepSimulates L sha256 reqs s { s with index } reg (.index (.pull i fails)) := by
  obtain ⟨m, hm, hobject, -⟩ := h.read_eq (i := i) (l := l) (by rw [hp]; rfl)
  obtain ⟨bucket, hrep, -⟩ := h.stores
  rw [hobject] at hindex
  have hpc : index.pc = Function.update s.index.pc i (((reqs i).op sha256).afterPull L l
      (pullFile fails s.index.files m.relPath)) := by rw [hindex]; rfl
  have hnot : ∀ r, s.index.pc i ≠ .returned r := by rw [hp]; simp
  have hopen : (s.index.pc i).result = none := by rw [hp]; rfl
  have hquiet : (∀ name version e, reqs i = .download name version →
      (index.pc i).result = some (.ok (.found e)) → Has reg name version e.tarballChecksum) →
      Stands L sha256 reqs { s with index } reg := fun hfound =>
    h.index_quiet hs (by simp) (by rw [hindex]; rfl) (by simp) fun j fails' name version e hb => by
      cases hb
      exact hfound name version e
  have herror : ∀ e, ((reqs i).op sha256).afterPull L l
      (pullFile fails s.index.files m.relPath) = .leaving l (.error e) →
      (reqs i).apply sha256 { readIndex := fails } reg = (.indexError e, reg) →
      StepSimulates L sha256 reqs s { s with index } reg (.index (.pull i fails)) := by
    intro e hafter happly
    rw [hafter] at hpc
    refine h.effect_move i rfl rfl hpc hnot hopen rfl happly (hquiet ?_)
    rw [hpc, Function.update_self]
    simp [FsIndex.Pc.result]
  have hsilent : ∀ pc, ((reqs i).op sha256).afterPull L l
      (pullFile fails s.index.files m.relPath) = pc → pc.result = none →
      StepSimulates L sha256 reqs s { s with index } reg (.index (.pull i fails)) := by
    intro pc hafter hnone
    rw [hafter] at hpc
    refine h.silent_move (hquiet ?_) rfl hpc hnot (by rw [hopen, hnone])
    rw [hpc, Function.update_self, hnone]
    simp
  cases hr : reqs i with
  | publish json crateBytes =>
    rw [hr] at hm herror hsilent
    have happly := apply_publish hrep hm { readIndex := fails } crateBytes
    simp only [Request.op, IndexOp.afterPull] at herror hsilent
    cases hc : FsIndex.publishContents L json (sha256 crateBytes)
        (pullFile fails s.index.files m.relPath) with
    | error e =>
      rw [hc] at herror happly
      exact herror e rfl happly
    | ok c =>
      rw [hc] at hsilent
      exact hsilent _ rfl rfl
  | yank crateName version flag =>
    rw [hr] at hm herror hsilent
    have happly := @apply_yank L sha256 _ _ _ _ _ version hrep hm { readIndex := fails } flag
    simp only [Request.op, IndexOp.afterPull] at herror hsilent
    cases hc : FsIndex.yankContents L version flag (pullFile fails s.index.files m.relPath) with
    | error e =>
      rw [hc] at herror happly
      exact herror e rfl happly
    | ok c =>
      rw [hc] at hsilent
      exact hsilent _ rfl rfl
  | download name version =>
    rw [hr] at hm herror hpc
    have happly := @apply_download L sha256 _ _ _ _ _ version hrep hm { readIndex := fails }
    simp only [Request.op, IndexOp.afterPull] at herror hpc
    cases hc : FsIndex.existsAnswer L version (pullFile fails s.index.files m.relPath) with
    | error e =>
      rw [hc] at herror happly
      exact herror e rfl happly
    | ok e =>
      rw [hc] at hpc
      refine h.silent_move (hquiet ?_) rfl hpc hnot (by rw [hopen, hr]; rfl)
      intro name' version' e' hd he'
      rw [hr] at hd
      cases hd
      rw [hpc, Function.update_self] at he'
      cases he'
      exact has_of_existsAnswer hrep hm hc

omit [DecidableEq ι] in
/-- What a publish that is about to write or to store its tarball has found. -/
theorem missing_of_ready (h : Stands L sha256 reqs s reg) {bucket : S3.Bucket}
    (hrep : Represents L sha256 s.index.files bucket reg) {json : Publish} {crateBytes : Bytes}
    (hr : reqs i = .publish json crateBytes) {l : ℕ} {c : Contents}
    (hi : s.index.pc i = .planned l c ∨ s.index.pc i = .writing l c) :
    ∃ m, accessCrate json.name = .ok m ∧ find (reg m.key) json.vers = none ∧
      FsIndex.publishContents L json (sha256 crateBytes) (pullFile false s.index.files m.relPath) =
        .ok c ∧
      c = ((reg m.key).map Release.entry ++ [FsIndex.release json (sha256 crateBytes)],
        some json) := by
  have hready := h.index.ready i l c hi
  obtain ⟨m, hm, -, hrel⟩ := h.read_eq (i := i) (l := l) (k := .write) (by
    rw [hr]
    rcases hi with hi | hi <;> rw [hi] <;> rfl)
  simp only [hrel] at hready
  rw [hr] at hm hready
  have hcontents : FsIndex.publishContents L json (sha256 crateBytes)
      (pullFile false s.index.files m.relPath) = .ok c := hready
  have heq := Registry.publishContents_eq hrep hm false (sha256 crateBytes)
  rw [hcontents] at heq
  cases hfind : find (reg m.key) json.vers with
  | some r =>
    rw [hfind] at heq
    cases heq
  | none =>
    rw [hfind] at heq
    exact ⟨m, hm, hfind, hcontents, Except.ok.inj heq⟩

/-- **An index write.** -/
theorem simulates_put (h : Stands L sha256 reqs s reg) {l : ℕ} {c : Contents}
    (hp : s.index.pc i = .writing l c)
    (hs : FsIndex.step L (fun i => (reqs i).op sha256) s.index (.put i false) = some index)
    (hfiles : index.files = Function.update s.index.files (s.index.locks.lock l).object
      (some (FsIndex.serializeData L c.1 c.2)))
    (hpc : index.pc = Function.update s.index.pc i (.leaving l (.ok .done))) :
    StepSimulates L sha256 reqs s { s with index } reg (.index (.put i false)) := by
  obtain ⟨bucket, hrep, hbucket⟩ := h.stores
  obtain ⟨m, hm, hobject, hrel⟩ := h.read_eq (i := i) (l := l) (by rw [hp]; rfl)
  have hready := h.index.ready i l c (Or.inr hp)
  rw [hobject] at hfiles
  have hnot : ∀ r, s.index.pc i ≠ .returned r := by rw [hp]; simp
  have hopen : (s.index.pc i).result = none := by rw [hp]; rfl
  have hlose : ¬ LosesWrite reqs (.index (.put i false)) := fun ⟨_, _, _, _, e⟩ => by cases e
  have hstays : ∀ path, ¬ Pending sha256 reqs { s with index } path →
      (∀ json crateBytes, reqs i = .publish json crateBytes →
        path ≠ tarballPath sha256 json crateBytes) → ¬ Pending sha256 reqs s path := by
    rintro path hpath hself ⟨j, l', c', json, crateBytes, hj, hw, rfl⟩
    refine hpath ⟨j, l', c', json, crateBytes, hj, writing_stays hs hw fun fails e => ?_, rfl⟩
    cases e
    exact hself json crateBytes hj rfl
  have heffect : ∀ reg', (reqs i).apply sha256 {} reg = (.done, reg') →
      (reqs i).decided (some (.ok .done)) = some .done →
      (∃ bucket', Represents L sha256 index.files bucket' reg' ∧
        ∀ path, ¬ Pending sha256 reqs { s with index } path → s.bucket path = bucket' path) →
      StepSimulates L sha256 reqs s { s with index } reg (.index (.put i false)) := by
    intro reg' happly hdone hstores
    refine h.effect_move i rfl rfl hpc hnot hopen hdone happly ?_
    refine h.index_step hs (by simp) hlose (fun name version c hc => ?_) hstores (by simp)
    have hkept : Has ((reqs i).apply sha256 {} reg).2 name version c := hc.apply (reqs i) {}
    rwa [happly] at hkept
  cases hr : reqs i with
  | publish json crateBytes =>
    obtain ⟨m', hm', hmissing, hcontents, hc⟩ := h.missing_of_ready hrep hr (Or.inr hp)
    rw [hr] at hm hstays heffect
    cases hm.symm.trans hm'
    have happly := apply_publish hrep hm {} crateBytes
    rw [hcontents] at happly
    have hnew := hrep.publish hm hmissing crateBytes
    simp only [List.map_append, List.map_cons, List.map_nil] at hnew
    rw [hc] at hfiles
    refine heffect _ happly rfl ⟨_, hfiles ▸ hnew, fun path hpath => ?_⟩
    rcases eq_or_ne path (S3.newPath json.name json.vers.display (sha256 crateBytes)) with rfl | hne
    · rw [Function.update_self]
      exact h.pending i l c json crateBytes hr hp
    · rw [Function.update_of_ne hne]
      refine hbucket path (hstays path hpath fun json' crateBytes' e => ?_)
      cases e
      exact hne
  | yank crateName version flag =>
    rw [hr] at hm hready hrel hstays heffect
    rw [hrel] at hready
    have hcontents : FsIndex.yankContents L version flag
        (pullFile false s.index.files m.relPath) = .ok c := hready
    have happly := @apply_yank L sha256 _ _ _ _ _ version hrep hm {} flag
    rw [hcontents] at happly
    obtain ⟨q, hq⟩ := Registry.yankContents_eq hrep hm false flag version
    rw [hcontents] at hq
    cases hfind : find (reg m.key) version with
    | none =>
      rw [hfind] at hq
      cases hq
    | some r =>
      rw [hfind] at hq
      cases hq
      have hnew := hrep.yank hm (List.ne_nil_of_mem (Registry.mem_of_find hfind).1) version flag q
      refine heffect _ happly rfl ⟨bucket, hfiles ▸ hnew, fun path hpath => ?_⟩
      exact hbucket path (hstays path hpath (by simp))
  | download name version =>
    rw [hr] at hready
    exact hready.elim

/-- **An index write of a yank that fails.** -/
theorem simulates_notPut (h : Stands L sha256 reqs s reg) {l : ℕ} {c : Contents}
    (hp : s.index.pc i = .writing l c) (hlose : ¬ LosesWrite reqs (.index (.put i true)))
    (hs : FsIndex.step L (fun i => (reqs i).op sha256) s.index (.put i true) = some index)
    (hindex : index = s.index.move i (.leaving l (.error .serviceError))) :
    StepSimulates L sha256 reqs s { s with index } reg (.index (.put i true)) := by
  obtain ⟨bucket, hrep, -⟩ := h.stores
  obtain ⟨m, hm, -, hrel⟩ := h.read_eq (i := i) (l := l) (by rw [hp]; rfl)
  have hready := h.index.ready i l c (Or.inr hp)
  rw [hrel] at hready
  have hput : ∀ j json crateBytes, reqs j = .publish json crateBytes →
      ∀ fails, FsIndex.Label.put i true ≠ .put j fails := by
    rintro j json crateBytes hj fails e
    cases e
    exact hlose ⟨i, json, crateBytes, hj, rfl⟩
  have hstands := h.index_quiet hs (by simp) (by rw [hindex]; rfl) hput (by simp)
  have hpc : index.pc = Function.update s.index.pc i (.leaving l (.error .serviceError)) := by
    rw [hindex]
    rfl
  refine h.effect_move i rfl rfl hpc (by rw [hp]; simp) (by rw [hp]; rfl) rfl ?_ hstands
  cases hr : reqs i with
  | publish json crateBytes => exact absurd rfl (hput i json crateBytes hr true)
  | yank crateName version flag =>
    rw [hr] at hm hready
    have hcontents : FsIndex.yankContents L version flag
        (pullFile false s.index.files m.relPath) = .ok c := hready
    have happly := @apply_yank L sha256 _ _ _ _ _ version hrep hm { writeIndex := true } flag
    rw [hcontents] at happly
    exact happly
  | download name version =>
    rw [hr] at hready
    exact hready.elim

/-- **An upload that fails.** -/
theorem simulates_notStored (h : Stands L sha256 reqs s reg) {json : Publish} {crateBytes : Bytes}
    (hr : reqs i = .publish json crateBytes) {l : ℕ} {c : Contents}
    (hp : s.index.pc i = .planned l c)
    (hs : FsIndex.step L (fun i => (reqs i).op sha256) s.index
      (.endStep i (.error .serviceError)) = some index)
    (hindex : index = s.index.move i (.leaving l (.error .serviceError))) :
    StepSimulates L sha256 reqs s { s with index } reg (.putCrate i true) := by
  obtain ⟨bucket, hrep, -⟩ := h.stores
  obtain ⟨m, hm, -, hcontents, -⟩ := h.missing_of_ready hrep hr (Or.inl hp)
  have hstands := h.index_quiet hs (by simp) (by rw [hindex]; rfl) (by simp) (by simp)
  have hpc : index.pc = Function.update s.index.pc i (.leaving l (.error .serviceError)) := by
    rw [hindex]
    rfl
  refine h.effect_move i rfl rfl hpc (by rw [hp]; simp) (by rw [hp]; rfl) rfl ?_ hstands
  have happly := apply_publish hrep hm { storeTarball := true } crateBytes
  rw [hcontents] at happly
  rw [hr]
  exact happly

omit [DecidableEq ι] in
/-- Requests that store their tarballs at one path are one. -/
theorem eq_of_tarballPath (h : Stands L sha256 reqs s reg) {j : ι} {json json' : Publish}
    {crateBytes crateBytes' : Bytes} (hi : reqs i = .publish json crateBytes)
    (hj : reqs j = .publish json' crateBytes') {l l' : ℕ} {c c' : Contents}
    (hpi : s.index.pc i = .planned l c ∨ s.index.pc i = .writing l c)
    (hpj : s.index.pc j = .planned l' c' ∨ s.index.pc j = .writing l' c')
    (hpath : tarballPath sha256 json crateBytes = tarballPath sha256 json' crateBytes') :
    i = j := by
  obtain ⟨bucket, hrep, -⟩ := h.stores
  obtain ⟨m, hm, -⟩ := h.missing_of_ready hrep hi hpi
  obtain ⟨m', hm', -⟩ := h.missing_of_ready hrep hj hpj
  obtain ⟨hname, -⟩ := S3.newPath_inj (FsIndex.dot_notMem_of_accessCrate hm)
    (FsIndex.dot_notMem_of_accessCrate hm') hpath
  refine h.index.alone hpi hpj ?_
  rw [op_publish hi, op_publish hj]
  simp only [IndexOp.relPath, IndexOp.key, IndexOp.crateName, hname]

/-- **An upload.** -/
theorem simulates_stored (h : Stands L sha256 reqs s reg) {json : Publish} {crateBytes : Bytes}
    (hr : reqs i = .publish json crateBytes) {l : ℕ} {c : Contents}
    (hp : s.index.pc i = .planned l c)
    (hs : FsIndex.step L (fun i => (reqs i).op sha256) s.index (.endStep i (.ok ())) = some index)
    (hindex : index = s.index.move i (.writing l c))
    (hserved : Served sha256 reqs { s with
      index
      bucket := Function.update s.bucket (tarballPath sha256 json crateBytes) (some crateBytes)
      storedCrate := Function.update s.storedCrate i true }) :
    StepSimulates L sha256 reqs s { s with
      index
      bucket := Function.update s.bucket (tarballPath sha256 json crateBytes) (some crateBytes)
      storedCrate := Function.update s.storedCrate i true } reg (.putCrate i false) := by
  have hpc : index.pc = Function.update s.index.pc i (.writing l c) := by
    rw [hindex]
    rfl
  have hself : index.pc i = .writing l c := by rw [hpc, Function.update_self]
  have hold : ∀ j, j ≠ i → index.pc j = s.index.pc j := fun j hj => by
    rw [hpc, Function.update_of_ne hj]
  refine h.silent_move ?_ rfl hpc (by rw [hp]; simp) (by rw [hp]; rfl)
  obtain ⟨bucket, hrep, hbucket⟩ := h.stores
  refine ⟨FsIndex.inv_step h.index hs, hserved, ⟨bucket, ?_, fun path hpath => ?_⟩, ?_, ?_, ?_, ?_⟩
  · have hfiles : index.files = s.index.files := by
      rw [hindex]
      rfl
    exact hfiles ▸ hrep
  · have hne : path ≠ tarballPath sha256 json crateBytes := fun e =>
      hpath ⟨i, l, c, json, crateBytes, hr, hself, e⟩
    show Function.update s.bucket _ _ path = _
    rw [Function.update_of_ne hne]
    refine hbucket path fun ⟨j, l', c', json', crateBytes', hj, hw, e⟩ => hpath ?_
    exact ⟨j, l', c', json', crateBytes', hj, writing_stays hs hw (by simp), e⟩
  · intro j l' c' json' crateBytes' hj hw
    show Function.update s.bucket _ _ _ = _
    rcases eq_or_ne j i with rfl | hji
    · rw [hr] at hj
      cases hj
      exact Function.update_self ..
    · have hw' : s.index.pc j = .writing l' c' := (hold j hji).symm.trans hw
      rw [Function.update_of_ne fun e => hji (h.eq_of_tarballPath hj hr (Or.inr hw') (Or.inl hp) e)]
      exact h.pending j l' c' json' crateBytes' hj hw'
  · exact fun j => (h.running j).imp_right fun ⟨r, hj⟩ => ⟨r, returned_step hs hj⟩
  · intro j hj
    rcases eq_or_ne j i with rfl | hji
    · exact ⟨⟨json, crateBytes, hr⟩, Or.inl ⟨l, c, hself⟩⟩
    · refine h.stored_step hs (fun ⟨_, _, _, _, e⟩ => by cases e) ?_
      simpa only [Function.update_of_ne hji] using hj
  · intro j name version e hj hfound
    rcases found_of_step hs hfound with hfound | ⟨fails, hpull⟩
    · exact h.found j name version e hj hfound
    · cases hpull

/-! ## Steps after the index call -/

theorem goTo (h : Stands L sha256 reqs s reg) {st : Stage} {r : FsIndex.Outcome}
    (hpc : s.index.pc i = .returned r) (hserved : Served sha256 reqs (s.goTo i st)) :
    Stands L sha256 reqs (s.goTo i st) reg where
  index := h.index
  served := hserved
  stores := h.stores
  pending := h.pending
  running j := by
    rcases eq_or_ne j i with rfl | hj
    · exact Or.inr ⟨r, hpc⟩
    · have hstage : (s.goTo i st).stage j = s.stage j := Function.update_of_ne hj _ _
      exact (h.running j).imp_left hstage.trans
  stored := h.stored
  found := h.found

theorem silent_goTo (h : Stands L sha256 reqs s reg) {st : Stage} {r : FsIndex.Outcome}
    (hpc : s.index.pc i = .returned r) (hs : step L sha256 reqs s a = some (s.goTo i st))
    (hsame : st.decided ((reqs i).decided (some r)) = s.decided reqs i) :
    StepSimulates L sha256 reqs s (s.goTo i st) reg a := by
  refine .silent (h.goTo hpc (served_step h.served hs)) ?_
  have hresult : (s.index.pc i).result = some r := by rw [hpc]; rfl
  rw [decided_goTo, hresult, hsame, Function.update_eq_self]

/-- **What follows an index call that has returned.** -/
theorem simulates_finish (h : Stands L sha256 reqs s reg) {r : FsIndex.Outcome}
    {newFails oldFails : Bool} (hst : s.stage i = .running) (hpc : s.index.pc i = .returned r)
    (hs : step L sha256 reqs s (.finish i newFails oldFails) = some s') :
    StepSimulates L sha256 reqs s s' reg (.finish i newFails oldFails) := by
  have hfinish : finish sha256 reqs s i newFails oldFails r = some s' := by
    simpa only [step, hst, hpc] using hs
  have hdecided : s.decided reqs i = (reqs i).decided (some r) := by
    rw [State.decided, hst, hpc]
    rfl
  have hgo : ∀ st, s' = s.goTo i st → st.decided ((reqs i).decided (some r)) =
      (reqs i).decided (some r) → StepSimulates L sha256 reqs s s' reg
        (.finish i newFails oldFails) := by
    rintro st rfl hsame
    exact h.silent_goTo hpc hs (hsame.trans hdecided.symm)
  cases hr : reqs i with
  | publish json crateBytes =>
    simp only [finish, hr] at hfinish
    rw [hr] at hgo
    cases r with
    | ok x => exact hgo _ (Option.some.inj hfinish).symm rfl
    | error e =>
      have hnot : s.storedCrate i = false := by
        by_contra hstored
        obtain ⟨-, ⟨l, c, hw⟩ | ⟨x, hx⟩⟩ := h.stored i (Bool.not_eq_false _ ▸ hstored)
        · rw [hpc] at hw
          cases hw
        · rw [hpc] at hx
          cases hx
      simp only [hnot, Bool.false_eq_true, if_false] at hfinish
      exact hgo _ (Option.some.inj hfinish).symm rfl
  | yank crateName version flag =>
    simp only [finish, hr] at hfinish
    rw [hr] at hgo
    cases r with
    | ok x => exact hgo _ (Option.some.inj hfinish).symm rfl
    | error e => exact hgo _ (Option.some.inj hfinish).symm rfl
  | download name version =>
    simp only [finish, hr] at hfinish
    rw [hr] at hgo
    cases r with
    | error e => exact hgo _ (Option.some.inj hfinish).symm rfl
    | ok x =>
      cases x with
      | done => cases hfinish
      | found e => exact hgo _ (Option.some.inj hfinish).symm rfl

omit [DecidableEq ι] in
/-- A version that is there is not about to be written. -/
theorem not_pending (h : Stands L sha256 reqs s reg) {name : String} {version : Version}
    {m : CrateMetaPath} {r : Release} (hm : accessCrate name = .ok m)
    (hfind : find (reg m.key) version = some r) (c : Checksum) :
    ¬ Pending sha256 reqs s (S3.newPath name version.display c) := by
  rintro ⟨j, l, contents, json, crateBytes, hj, hw, hpath⟩
  obtain ⟨bucket, hrep, -⟩ := h.stores
  obtain ⟨m', hm', hmissing, -⟩ := h.missing_of_ready hrep hj (Or.inr hw)
  obtain ⟨rfl, rfl⟩ := S3.newPath_inj (FsIndex.dot_notMem_of_accessCrate hm)
    (FsIndex.dot_notMem_of_accessCrate hm') hpath
  cases hm.symm.trans hm'
  rw [hfind] at hmissing
  cases hmissing

/-- **A pull of a tarball.** -/
theorem simulates_pullNew (h : Stands L sha256 reqs s reg) {name : String} {version : Version}
    {c : Checksum} {fails : Bool} (hr : reqs i = .download name version)
    (hst : s.stage i = .fetching c) (hs : step L sha256 reqs s (.pullNew i fails) = some s') :
    StepSimulates L sha256 reqs s s' reg (.pullNew i fails) := by
  obtain ⟨bucket, hrep, hbucket⟩ := h.stores
  obtain ⟨e, hpc, hc⟩ := h.served.fetching i c (Or.inl hst)
  obtain ⟨m, r, hm, hfind, hck⟩ := h.found i name version e hr (by rw [hpc]; rfl)
  have hpath := hbucket _ (h.not_pending hm hfind c)
  have hopen : s.decided reqs i = none := by
    rw [State.decided, hst]
    rfl
  have happly := @apply_download L sha256 _ _ _ _ _ version hrep hm { fetchTarball := fails }
  rw [Registry.existsAnswer_eq hrep hm, hfind] at happly
  simp only [Bool.false_eq_true, if_false, hck, hc, ← hpath] at happly
  have heffect : ∀ st reply, s' = s.goTo i st → (∀ early, st.decided early = some reply) →
      (Request.download name version).apply sha256 { fetchTarball := fails } reg = (reply, reg) →
      StepSimulates L sha256 reqs s s' reg (.pullNew i fails) := by
    rintro st reply rfl hreply happly
    have hatOnce : atOnce sha256 reqs reg ((Label.pullNew i fails).request,
        (Label.pullNew i fails).faults) = (reply, reg) := by
      simp only [atOnce, Label.request, hr]
      exact happly
    refine .effect hopen ?_ ?_
    · rw [hatOnce]
      exact h.goTo hpc (served_step h.served hs)
    · rw [hatOnce, decided_goTo, hreply]
      rfl
  simp only [step, hr, hst, S3.pullObject] at hs
  cases fails with
  | true =>
    simp only [if_true] at hs happly
    exact heffect _ _ (Option.some.inj hs).symm (fun _ => rfl) happly
  | false =>
    simp only [Bool.false_eq_true, if_false] at hs happly
    cases hd : s.bucket (S3.newPath name version.display c) with
    | some d =>
      rw [hd] at hs happly
      exact heffect _ _ (Option.some.inj hs).symm (fun _ => rfl) happly
    | none =>
      rw [hd] at hs happly
      exact heffect _ _ (Option.some.inj hs).symm (fun _ => rfl) happly

end Stands

/-- **A pull of a legacy tarball.** -/
theorem Stands.simulates_pullOld (h : Stands L sha256 reqs s reg) {name : String}
    {version : Version} {c : Checksum} {firstErr : StorageError} {fails : Bool}
    (hr : reqs i = .download name version) (hst : s.stage i = .fallingBack c firstErr)
    (hs : step L sha256 reqs s (.pullOld i fails) = some s') :
    StepSimulates L sha256 reqs s s' reg (.pullOld i fails) := by
  obtain ⟨e, hpc, -⟩ := h.served.fetching i c (Or.inr ⟨firstErr, hst⟩)
  have hgo : s' = s.goTo i (.answered (.storageError firstErr)) := by
    have hout := hs
    simp only [step, hr, hst, S3.pullObject, h.served.oldPath] at hout
    cases fails <;> exact (Option.some.inj hout).symm
  subst hgo
  refine h.silent_goTo hpc hs ?_
  rw [State.decided, hst]
  rfl

/-- **A step of the index calls.** -/
theorem Stands.simulates_index (h : Stands L sha256 reqs s reg)
    (hb : ∀ i r, b ≠ .endStep i r) (hlose : ¬ LosesWrite reqs (.index b))
    (hs : FsIndex.step L (fun i => (reqs i).op sha256) s.index b = some index) :
    StepSimulates L sha256 reqs s { s with index } reg (.index b) := by
  have hquiet : (∀ j fails, b ≠ .put j fails) → (∀ j fails, b ≠ .pull j fails) →
      index.files = s.index.files → Stands L sha256 reqs { s with index } reg :=
    fun hput hpull hfiles => h.index_quiet hs (fun i => hb i _) hfiles
      (fun j _ _ _ fails => hput j fails) fun j fails _ _ _ e => absurd e (hpull j fails)
  cases FsIndex.step_cases hs with
  | @refused i e hp hm =>
    exact h.effect_move i rfl rfl rfl (by rw [hp]; simp) (by rw [hp]; rfl) rfl
      (apply_of_error hm _) (hquiet (by simp) (by simp) rfl)
  | @looked i m hp hm =>
    exact h.silent_move (i := i) (hquiet (by simp) (by simp) rfl) rfl rfl (by rw [hp]; simp)
      (by rw [hp]; rfl)
  | @acquired i l hp =>
    exact h.silent_move (i := i) (hquiet (by simp) (by simp) rfl) rfl rfl (by rw [hp]; simp)
      (by rw [hp]; rfl)
  | pulled hp => exact h.simulates_pull hp hs rfl
  | stored => exact absurd rfl (hb _ _)
  | notStored => exact absurd rfl (hb _ _)
  | put hp => exact h.simulates_put hp hs rfl rfl
  | notPut hp => exact h.simulates_notPut hp hlose hs rfl
  | @released i l r hp =>
    exact h.silent_move (i := i) (hquiet (by simp) (by simp) rfl) rfl rfl (by rw [hp]; simp)
      (by rw [hp]; rfl)
  | @dropped i l r hp =>
    exact h.silent_move (i := i) (hquiet (by simp) (by simp) rfl) rfl rfl (by rw [hp]; simp)
      (by rw [hp]; rfl)
  | @finished i r hp =>
    exact h.silent_move (i := i) (hquiet (by simp) (by simp) rfl) rfl rfl (by rw [hp]; simp)
      (by rw [hp]; rfl)

/-- **Every step is silent or a request at once.** -/
theorem simulates_step (h : Stands L sha256 reqs s reg) (hlose : ¬ LosesWrite reqs a)
    (hs : step L sha256 reqs s a = some s') : StepSimulates L sha256 reqs s s' reg a := by
  cases a with
  | index b =>
    cases b with
    | endStep i r => cases hs
    | _ =>
      obtain ⟨index, hindex, rfl⟩ := Option.map_eq_some_iff.mp hs
      exact h.simulates_index (by simp) hlose hindex
  | putCrate i fails =>
    have hserved := served_step h.served hs
    simp only [step] at hs
    cases hr : reqs i <;> simp only [hr, reduceCtorEq] at hs
    cases fails with
    | true =>
      obtain ⟨index, hindex, rfl⟩ := Option.map_eq_some_iff.mp hs
      cases FsIndex.step_cases hindex with
      | notStored hp => exact h.simulates_notStored hr hp hindex rfl
    | false =>
      obtain ⟨index, hindex, rfl⟩ := Option.map_eq_some_iff.mp hs
      cases FsIndex.step_cases hindex with
      | stored hp => exact h.simulates_stored hr hp hindex rfl hserved
  | finish i newFails oldFails =>
    cases hst : s.stage i with
    | running =>
      cases hpc : s.index.pc i with
      | returned r => exact h.simulates_finish hst hpc hs
      | _ => simp [step, hst, hpc] at hs
    | _ => simp [step, hst] at hs
  | pullNew i fails =>
    cases hr : reqs i with
    | download name version =>
      cases hst : s.stage i with
      | fetching c => exact h.simulates_pullNew hr hst hs
      | _ => simp [step, hr, hst] at hs
    | _ => simp [step, hr] at hs
  | pullOld i fails =>
    cases hr : reqs i with
    | download name version =>
      cases hst : s.stage i with
      | fallingBack c firstErr => exact h.simulates_pullOld hr hst hs
      | _ => simp [step, hr, hst] at hs
    | _ => simp [step, hr] at hs

end Steps

end Server

end Freighter
