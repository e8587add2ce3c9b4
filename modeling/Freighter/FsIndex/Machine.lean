import Freighter.FsIndex.Locks
import Freighter.FsIndex.Provider
import Freighter.Lib.Run

/-!
# Concurrent calls on the filesystem index

Any number of calls, each a program of steps: look up the lock, acquire it, pull the file, run
`end_step` (only `publish`), put the file, release the guard, drop the reference, clean up the map.
A run is any interleaving of the steps; a pull, an `end_step` and a put may fail.

* `IndexOp`, `Pc`, `State`, `step`; `Move`: what a step does, **`step_cases`**;
* `Inv`: what a call is about to write is what it computes from the file as it is now;
  **`inv_step`**, `exec_inv`.
-/

namespace Freighter

namespace FsIndex

/-! ## The calls -/

/-- A call on the index. -/
inductive IndexOp where
  | publish (publish : Publish) (tarballChecksum : Checksum)
  | yank (crateName : String) (version : Version) (yank : Bool)
  | confirm (crateName : String) (version : Version)

/-- What a successful call returns. -/
inductive Answer where
  | done
  | found (e : CrateVersionExists)
deriving DecidableEq

abbrev Outcome : Type := Except IndexError Answer

/-- Where a call is. `leaving` holds the guard and has its result, `unlocked` has dropped the
guard, `dropped` the reference too. -/
inductive Pc where
  | idle
  | waiting (l : ℕ)
  | holding (l : ℕ)
  | planned (l : ℕ) (c : Contents)
  | writing (l : ℕ) (c : Contents)
  | leaving (l : ℕ) (r : Outcome)
  | unlocked (l : ℕ) (r : Outcome)
  | dropped (r : Outcome)
  | returned (r : Outcome)

/-- What a call that acquires its lock in mode `m` holds. -/
def Pc.hold (m : Mode) : Pc → Option (ℕ × Mode)
  | .idle => none
  | .waiting l => some (l, .arc)
  | .holding l => some (l, m)
  | .planned l _ => some (l, m)
  | .writing l _ => some (l, m)
  | .leaving l _ => some (l, m)
  | .unlocked l _ => some (l, .arc)
  | .dropped _ => none
  | .returned _ => none

namespace IndexOp

def crateName : IndexOp → String
  | .publish p _ => p.name
  | .yank crateName _ _ => crateName
  | .confirm crateName _ => crateName

def key (op : IndexOp) : String := toAsciiLowercase op.crateName

/-- `exclusive` or `shared`. -/
def mode : IndexOp → Mode
  | .publish _ _ => .write
  | .yank _ _ _ => .write
  | .confirm _ _ => .read

/-- Where a call goes on after the pull. -/
def afterPull (L : Libs) (l : ℕ) (read : Except StorageError Bytes) : IndexOp → Pc
  | .publish p tarballChecksum =>
    match publishContents L p tarballChecksum read with
    | .ok c => .planned l c
    | .error e => .leaving l (.error e)
  | .yank _ version flag =>
    match yankContents L version flag read with
    | .ok c => .writing l c
    | .error e => .leaving l (.error e)
  | .confirm _ version => .leaving l ((existsAnswer L version read).map .found)

/-- From what it reads, the call computes the contents `c` to write. -/
def Writes (L : Libs) (read : Except StorageError Bytes) (c : Contents) : IndexOp → Prop
  | .publish p tarballChecksum => publishContents L p tarballChecksum read = .ok c
  | .yank _ version flag => yankContents L version flag read = .ok c
  | .confirm _ _ => False

end IndexOp

/-- The path of the file of a key that is allowed. -/
def keyPath (key : String) : String := (crateMetaFileRelPath key).getD ""

def IndexOp.relPath (op : IndexOp) : String := keyPath op.key

/-! ## The machine -/

structure State (ι : Type) where
  locks : AccessLocks ι String
  files : Files
  pc : ι → Pc

/-- One step of a call, with what the world does to it. -/
inductive Label (ι : Type) where
  | start (i : ι)
  | acquire (i : ι)
  | pull (i : ι) (fails : Bool)
  | endStep (i : ι) (r : Except IndexError Unit)
  | put (i : ι) (fails : Bool)
  | release (i : ι)
  | dropArc (i : ι)
  | onUnlocked (i : ι)

variable {ι : Type} [DecidableEq ι] (L : Libs) (ops : ι → IndexOp)

omit [DecidableEq ι] in
/-- No call has started yet. -/
def initial (files : Files) : State ι := ⟨.new, files, fun _ => .idle⟩

def State.move (s : State ι) (i : ι) (pc : Pc) : State ι :=
  { s with pc := Function.update s.pc i pc }

def step (s : State ι) : Label ι → Option (State ι)
  | .start i =>
    match s.pc i with
    | .idle =>
      match accessCrate (ops i).crateName with
      | .error e => some (s.move i (.returned (.error e)))
      | .ok m =>
        let (l, locks) := s.locks.rwlockForKey i m.key m.relPath
        some { s.move i (.waiting l) with locks }
    | _ => none
  | .acquire i =>
    match s.pc i with
    | .waiting l =>
      if s.locks.canAcquire l (ops i).mode then
        some { s.move i (.holding l) with locks := s.locks.acquire i l (ops i).mode }
      else none
    | _ => none
  | .pull i fails =>
    match s.pc i with
    | .holding l =>
      some (s.move i ((ops i).afterPull L l (pullFile fails s.files (s.locks.lock l).object)))
    | _ => none
  | .endStep i r =>
    match s.pc i with
    | .planned l c =>
      match r with
      | .ok () => some (s.move i (.writing l c))
      | .error e => some (s.move i (.leaving l (.error e)))
    | _ => none
  | .put i fails =>
    match s.pc i with
    | .writing l c =>
      match putContents L { putFails := fails } s.files (s.locks.lock l).object c with
      | (.error e, files) => some { s.move i (.leaving l (.error e)) with files }
      | (.ok (), files) => some { s.move i (.leaving l (.ok .done)) with files }
    | _ => none
  | .release i =>
    match s.pc i with
    | .leaving l r =>
      some { s.move i (.unlocked l r) with locks := s.locks.release i l (ops i).mode }
    | _ => none
  | .dropArc i =>
    match s.pc i with
    | .unlocked l r => some { s.move i (.dropped r) with locks := s.locks.dropArc i l }
    | _ => none
  | .onUnlocked i =>
    match s.pc i with
    | .dropped r =>
      some { s.move i (.returned r) with locks := s.locks.onUnlocked (ops i).key }
    | _ => none

/-! ## What a step does -/

/-- Every way in which a step changes the state. -/
inductive Move (s : State ι) : Label ι → State ι → Prop
  | refused {i : ι} {e : IndexError} (hp : s.pc i = .idle)
      (h : accessCrate (ops i).crateName = .error e) :
      Move s (.start i) (s.move i (.returned (.error e)))
  | looked {i : ι} {m : CrateMetaPath} (hp : s.pc i = .idle)
      (h : accessCrate (ops i).crateName = .ok m) :
      Move s (.start i) { s.move i (.waiting (s.locks.rwlockForKey i m.key m.relPath).1) with
        locks := (s.locks.rwlockForKey i m.key m.relPath).2 }
  | acquired {i : ι} {l : ℕ} (hp : s.pc i = .waiting l)
      (h : s.locks.canAcquire l (ops i).mode = true) :
      Move s (.acquire i) { s.move i (.holding l) with
        locks := s.locks.acquire i l (ops i).mode }
  | pulled {i : ι} {l : ℕ} {fails : Bool} (hp : s.pc i = .holding l) :
      Move s (.pull i fails)
        (s.move i ((ops i).afterPull L l (pullFile fails s.files (s.locks.lock l).object)))
  | stored {i : ι} {l : ℕ} {c : Contents} (hp : s.pc i = .planned l c) :
      Move s (.endStep i (.ok ())) (s.move i (.writing l c))
  | notStored {i : ι} {l : ℕ} {c : Contents} {e : IndexError} (hp : s.pc i = .planned l c) :
      Move s (.endStep i (.error e)) (s.move i (.leaving l (.error e)))
  | put {i : ι} {l : ℕ} {c : Contents} (hp : s.pc i = .writing l c) :
      Move s (.put i false) { s.move i (.leaving l (.ok .done)) with
        files := Function.update s.files (s.locks.lock l).object
          (some (serializeData L c.1 c.2)) }
  | notPut {i : ι} {l : ℕ} {c : Contents} (hp : s.pc i = .writing l c) :
      Move s (.put i true) (s.move i (.leaving l (.error .serviceError)))
  | released {i : ι} {l : ℕ} {r : Outcome} (hp : s.pc i = .leaving l r) :
      Move s (.release i) { s.move i (.unlocked l r) with
        locks := s.locks.release i l (ops i).mode }
  | dropped {i : ι} {l : ℕ} {r : Outcome} (hp : s.pc i = .unlocked l r) :
      Move s (.dropArc i) { s.move i (.dropped r) with locks := s.locks.dropArc i l }
  | finished {i : ι} {r : Outcome} (hp : s.pc i = .dropped r) :
      Move s (.onUnlocked i) { s.move i (.returned r) with
        locks := s.locks.onUnlocked (ops i).key }

variable {L ops} {s s' : State ι} {a : Label ι}

theorem step_cases (h : step L ops s a = some s') : Move L ops s a s' := by
  cases a with
  | start i =>
    simp only [step] at h
    cases hp : s.pc i <;> simp only [hp, reduceCtorEq] at h
    cases hm : accessCrate (ops i).crateName with
    | error e =>
      rw [hm] at h
      cases h
      exact .refused hp hm
    | ok m =>
      rw [hm] at h
      cases h
      exact .looked hp hm
  | acquire i =>
    simp only [step] at h
    cases hp : s.pc i <;> simp only [hp, reduceCtorEq] at h
    split_ifs at h with hc
    cases h
    exact .acquired hp hc
  | pull i fails =>
    simp only [step] at h
    cases hp : s.pc i <;> simp only [hp, reduceCtorEq] at h
    cases h
    exact .pulled hp
  | endStep i r =>
    simp only [step] at h
    cases hp : s.pc i <;> simp only [hp, reduceCtorEq] at h
    cases r with
    | error e =>
      cases h
      exact .notStored hp
    | ok _ =>
      cases h
      exact .stored hp
  | put i fails =>
    simp only [step] at h
    cases hp : s.pc i <;> simp only [hp, reduceCtorEq] at h
    cases fails with
    | true =>
      cases h
      exact .notPut hp
    | false =>
      cases h
      exact .put hp
  | release i =>
    simp only [step] at h
    cases hp : s.pc i <;> simp only [hp, reduceCtorEq] at h
    cases h
    exact .released hp
  | dropArc i =>
    simp only [step] at h
    cases hp : s.pc i <;> simp only [hp, reduceCtorEq] at h
    cases h
    exact .dropped hp
  | onUnlocked i =>
    simp only [step] at h
    cases hp : s.pc i <;> simp only [hp, reduceCtorEq] at h
    cases h
    exact .finished hp

/-- A call pulls when it holds its lock. -/
theorem holding_of_pull {i : ι} {fails : Bool} (h : step L ops s (.pull i fails) = some s') :
    ∃ l, s.pc i = .holding l := by
  cases step_cases h with
  | @pulled _ l _ hp => exact ⟨l, hp⟩

/-! ## The invariant -/

variable (L ops) in
/-- The locks agree with the calls, only calls on allowed names get that far, and what a call is
about to write is what it computes from the file as it is now. -/
structure Inv (s : State ι) : Prop where
  locks : s.locks.Inv (fun i => (ops i).key) keyPath fun i => (s.pc i).hold (ops i).mode
  allowed : ∀ i h, (s.pc i).hold (ops i).mode = some h →
    ∃ m, accessCrate (ops i).crateName = .ok m
  ready : ∀ i l c, s.pc i = .planned l c ∨ s.pc i = .writing l c →
    (ops i).Writes L (pullFile false s.files (ops i).relPath) c

theorem accessCrate_relPath {name : String} {m : CrateMetaPath} (h : accessCrate name = .ok m) :
    m.relPath = keyPath (toAsciiLowercase name) := by
  obtain ⟨h1, h2⟩ := accessCrate_eq_ok.mp h
  rw [keyPath, ← h1, h2, Option.getD_some]

theorem IndexOp.accessCrate_eq {op : IndexOp} {m : CrateMetaPath}
    (h : accessCrate op.crateName = .ok m) : m.key = op.key ∧ m.relPath = op.relPath :=
  ⟨(accessCrate_eq_ok.mp h).1, accessCrate_relPath h⟩

theorem IndexOp.mode_of_writes {op : IndexOp} {read : Except StorageError Bytes} {c : Contents}
    (h : op.Writes L read c) : op.mode = .write := by
  cases op with
  | publish p tarballChecksum => rfl
  | yank crateName version flag => rfl
  | confirm crateName version => exact h.elim

/-- Calls on different keys have different files. -/
theorem IndexOp.key_eq_of_relPath {op op' : IndexOp} {m m' : CrateMetaPath}
    (h : accessCrate op.crateName = .ok m) (h' : accessCrate op'.crateName = .ok m')
    (hr : op.relPath = op'.relPath) : op.key = op'.key := by
  obtain ⟨hk, hp⟩ := accessCrate_eq h
  obtain ⟨hk', hp'⟩ := accessCrate_eq h'
  have := relPath_inj h h' (by rw [hp, hp', hr])
  rw [← hk, ← hk', this]

variable (ops) in
theorem hold_move (s : State ι) (i : ι) (pc : Pc) :
    (fun j => ((s.move i pc).pc j).hold (ops j).mode) =
      Function.update (fun j => (s.pc j).hold (ops j).mode) i (pc.hold (ops i).mode) := by
  funext j
  exact Function.apply_update (fun j (pc : Pc) => pc.hold (ops j).mode) s.pc i pc j

/-- What holds of the call that moves, at its new position, and of the others where they are. -/
theorem moved_or_stayed {Q : Pc → Prop} {pcs : ι → Pc} {i j : ι} {pc : Pc}
    (hmoved : i = j → Q pc) (hstayed : i ≠ j → Q (pcs j)) : Q (Function.update pcs i pc j) := by
  rw [Function.update_apply]
  split_ifs with hij
  · exact hmoved hij.symm
  · exact hstayed (Ne.symm hij)

omit [DecidableEq ι] in
theorem inv_initial (files : Files) : Inv L ops (initial files) where
  locks := AccessLocks.inv_new
  allowed _ _ h := by cases h
  ready _ _ _ h := by rcases h with h | h <;> cases h

namespace Inv

omit [DecidableEq ι] in
/-- A call accesses its own file. -/
theorem object_eq (h : Inv L ops s) {i : ι} {l : ℕ} {m : Mode}
    (hi : (s.pc i).hold (ops i).mode = some (l, m)) :
    (s.locks.lock l).object = (ops i).relPath := h.locks.object_eq hi

omit [DecidableEq ι] in
/-- **No two calls are between pull and put of one file.** -/
theorem alone (h : Inv L ops s) {i j : ι} {l l' : ℕ} {c c' : Contents}
    (hi : s.pc i = .planned l c ∨ s.pc i = .writing l c)
    (hj : s.pc j = .planned l' c' ∨ s.pc j = .writing l' c')
    (hr : (ops i).relPath = (ops j).relPath) : i = j := by
  have hwrite : ∀ {k : ι} {l : ℕ} {c : Contents}, s.pc k = .planned l c ∨ s.pc k = .writing l c →
      (s.pc k).hold (ops k).mode = some (l, .write) := by
    intro k l c hk
    rw [← IndexOp.mode_of_writes (h.ready k l c hk)]
    rcases hk with hk | hk <;> rw [hk] <;> rfl
  obtain ⟨m, hm⟩ := h.allowed i _ (hwrite hi)
  obtain ⟨m', hm'⟩ := h.allowed j _ (hwrite hj)
  exact h.locks.excludes (hwrite hi) (hwrite hj) (IndexOp.key_eq_of_relPath hm hm' hr)
    (by simp)

/-- A step of `i` that leaves the files alone. -/
theorem moved (h : Inv L ops s) {i : ι} {pc : Pc} {locks : AccessLocks ι String}
    (hlocks : locks.Inv (fun i => (ops i).key) keyPath
      (Function.update (fun j => (s.pc j).hold (ops j).mode) i (pc.hold (ops i).mode)))
    (hallowed : ∀ x, pc.hold (ops i).mode = some x →
      ∃ m, accessCrate (ops i).crateName = .ok m)
    (hready : ∀ l c, pc = .planned l c ∨ pc = .writing l c →
      (ops i).Writes L (pullFile false s.files (ops i).relPath) c) :
    Inv L ops { s.move i pc with locks } := by
  refine ⟨?_, ?_, ?_⟩
  · have := hold_move ops s i pc
    simp only [State.move] at this ⊢
    rw [this]
    exact hlocks
  · exact (Function.forall_update_iff s.pc fun j (pc : Pc) => ∀ x, pc.hold (ops j).mode = some x →
      ∃ m, accessCrate (ops j).crateName = .ok m).mpr ⟨hallowed, fun j _ => h.allowed j⟩
  · exact (Function.forall_update_iff s.pc fun j pc => ∀ l c, pc = .planned l c ∨
      pc = .writing l c → (ops j).Writes L (pullFile false s.files (ops j).relPath) c).mpr
        ⟨hready, fun j _ => h.ready j⟩

/-- A step of `i` that leaves the files and the locks alone. -/
theorem moved_held (h : Inv L ops s) {i : ι} {pc : Pc}
    (hhold : pc.hold (ops i).mode = (s.pc i).hold (ops i).mode)
    (hready : ∀ l c, pc = .planned l c ∨ pc = .writing l c →
      (ops i).Writes L (pullFile false s.files (ops i).relPath) c) :
    Inv L ops (s.move i pc) := by
  refine h.moved ?_ (fun x hx => h.allowed i x (hhold ▸ hx)) hready
  rw [hhold, Function.update_eq_self]
  exact h.locks

end Inv

theorem hold_afterPull (L : Libs) (l : ℕ) (read : Except StorageError Bytes) (m : Mode)
    (op : IndexOp) : (op.afterPull L l read).hold m = some (l, m) := by
  cases op with
  | publish p tarballChecksum =>
    simp only [IndexOp.afterPull]
    cases publishContents L p tarballChecksum read <;> rfl
  | yank crateName version flag =>
    simp only [IndexOp.afterPull]
    cases yankContents L version flag read <;> rfl
  | confirm crateName version => rfl

/-- A call that goes on to write computes what it writes from a file that it could read. -/
theorem writes_afterPull {op : IndexOp} {l l' : ℕ} {fails : Bool} {files : Files} {path : String}
    {c : Contents} (h : op.afterPull L l (pullFile fails files path) = .planned l' c ∨
      op.afterPull L l (pullFile fails files path) = .writing l' c) :
    op.Writes L (pullFile false files path) c := by
  have hfails : fails = false := by
    cases fails with
    | false => rfl
    | true => cases op <;> rcases h with h | h <;> cases h
  subst hfails
  cases op with
  | publish p tarballChecksum =>
    simp only [IndexOp.afterPull] at h
    cases hc : publishContents L p tarballChecksum (pullFile false files path) with
    | error e => rw [hc] at h; rcases h with h | h <;> cases h
    | ok c' =>
      rw [hc] at h
      rcases h with h | h
      · cases h
        exact hc
      · cases h
  | yank crateName version flag =>
    simp only [IndexOp.afterPull] at h
    cases hc : yankContents L version flag (pullFile false files path) with
    | error e => rw [hc] at h; rcases h with h | h <;> cases h
    | ok c' =>
      rw [hc] at h
      rcases h with h | h
      · cases h
      · cases h
        exact hc
  | confirm crateName version => rcases h with h | h <;> cases h

/-- The put of `i` leaves what the other calls read as it was. -/
theorem inv_put (h : Inv L ops s) {i : ι} {l : ℕ} {c : Contents} (hp : s.pc i = .writing l c) :
    Inv L ops { s.move i (.leaving l (.ok .done)) with
      files := Function.update s.files (s.locks.lock l).object
        (some (serializeData L c.1 c.2)) } := by
  have hmoved : Inv L ops (s.move i (.leaving l (.ok .done))) :=
    h.moved_held (by rw [hp]; rfl) (by simp)
  refine ⟨hmoved.locks, hmoved.allowed, fun j l' c' hj => ?_⟩
  have hne : j ≠ i := by
    rintro rfl
    simp only [State.move, Function.update_self, reduceCtorEq, or_self] at hj
  have hj' : s.pc j = .planned l' c' ∨ s.pc j = .writing l' c' := by
    simpa only [State.move, Function.update_of_ne hne] using hj
  have hpath : (ops j).relPath ≠ (s.locks.lock l).object := by
    rw [h.object_eq (i := i) (m := (ops i).mode) (by rw [hp]; rfl)]
    exact fun hr => hne (h.alone hj' (Or.inr hp) hr)
  have hread : pullFile false (Function.update s.files (s.locks.lock l).object
      (some (serializeData L c.1 c.2))) (ops j).relPath =
        pullFile false s.files (ops j).relPath := by
    unfold pullFile
    rw [Function.update_of_ne hpath]
  rw [hread]
  exact h.ready j l' c' hj'

/-- **Every step keeps the invariant.** -/
theorem inv_step (h : Inv L ops s) (hs : step L ops s a = some s') : Inv L ops s' := by
  cases step_cases hs with
  | refused hp hm => exact h.moved_held (by rw [hp]; rfl) (by simp)
  | @looked i m hp hm =>
    obtain ⟨hk, hr⟩ := IndexOp.accessCrate_eq hm
    refine h.moved ?_ (fun _ _ => ⟨m, hm⟩) (by simp)
    rw [hk, hr]
    exact h.locks.rwlockForKey (by rw [hp]; rfl)
  | @acquired i l hp hc =>
    have hi : (s.pc i).hold (ops i).mode = some (l, .arc) := by rw [hp]; rfl
    exact h.moved (h.locks.acquire hi hc) (fun _ _ => h.allowed i _ hi) (by simp)
  | @pulled i l fails hp =>
    have hi : (s.pc i).hold (ops i).mode = some (l, (ops i).mode) := by rw [hp]; rfl
    rw [h.object_eq hi]
    refine h.moved_held ?_ fun l' c hc => writes_afterPull hc
    rw [hold_afterPull, hi]
  | stored hp =>
    refine h.moved_held (by rw [hp]; rfl) fun l' c' hc => ?_
    rcases hc with hc | hc
    · cases hc
    · cases hc
      exact h.ready _ _ _ (Or.inl hp)
  | notStored hp => exact h.moved_held (by rw [hp]; rfl) (by simp)
  | put hp => exact inv_put h hp
  | notPut hp => exact h.moved_held (by rw [hp]; rfl) (by simp)
  | @released i l r hp =>
    have hi : (s.pc i).hold (ops i).mode = some (l, (ops i).mode) := by rw [hp]; rfl
    exact h.moved (h.locks.release hi) (fun _ _ => h.allowed i _ hi) (by simp)
  | @dropped i l r hp =>
    have hi : (s.pc i).hold (ops i).mode = some (l, .arc) := by rw [hp]; rfl
    exact h.moved (h.locks.dropArc hi) (fun _ e => by cases e) (by simp)
  | @finished i r hp =>
    refine h.moved ?_ (fun _ e => by cases e) (by simp)
    have hnone : Pc.hold (ops i).mode (.returned r) = (s.pc i).hold (ops i).mode := by rw [hp]; rfl
    rw [hnone, Function.update_eq_self]
    exact h.locks.onUnlocked _

/-- The invariant holds along a run. -/
theorem exec_inv {files : Files} {labels : List (Label ι)}
    (h : Run.exec (step L ops) (initial files) labels = some s) : Inv L ops s :=
  Run.exec_invariant (fun _ _ _ hI hs => inv_step hI hs) h (inv_initial files)

/-! ## Writes -/

/-- **What a put writes**: the contents that the call computes from the file as it is. -/
theorem put_spec (h : Inv L ops s) {i : ι} (hs : step L ops s (.put i false) = some s') :
    ∃ c, (ops i).Writes L (pullFile false s.files (ops i).relPath) c ∧
      s'.files = Function.update s.files (ops i).relPath (some (serializeData L c.1 c.2)) := by
  cases step_cases hs with
  | @put _ l c hp =>
    refine ⟨c, h.ready i l c (Or.inr hp), ?_⟩
    rw [← h.object_eq (i := i) (m := (ops i).mode) (by rw [hp]; rfl)]

/-- Nothing else changes a file. -/
theorem files_eq_of_step (hs : step L ops s a = some s') (ha : ∀ i, a ≠ .put i false) :
    s'.files = s.files := by
  cases step_cases hs with
  | put hp => exact absurd rfl (ha _)
  | _ => rfl

end FsIndex

end Freighter
