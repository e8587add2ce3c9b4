import Freighter.FsIndex.History
import Freighter.FsIndex.LockMap

/-!
# Calls on the filesystem index come to an end

* `Pc.left`: how many steps a call has left at most; **`left_step`**: a step takes its call on, and
  no other;
* **`exists_step`**: a call that has not returned can go on, or waits for a call on the same crate
  that can;
* `State.lockMap`, **`lockMap_step`**: the calls are users of the lock map, which is `Tidy`.
-/

namespace Freighter

namespace FsIndex

/-- How many steps a call has left at most. -/
def Pc.left : Pc → ℕ
  | .idle => 8
  | .waiting _ => 7
  | .holding _ => 6
  | .planned _ _ => 5
  | .writing _ _ => 4
  | .leaving _ _ => 3
  | .unlocked _ _ => 2
  | .dropped _ => 1
  | .returned _ => 0

/-- The call that makes the step. -/
def Label.call {ι : Type} : Label ι → ι
  | .start i => i
  | .acquire i => i
  | .pull i _ => i
  | .endStep i _ => i
  | .put i _ => i
  | .release i => i
  | .dropArc i => i
  | .onUnlocked i => i

theorem left_afterPull (L : Libs) (l : ℕ) (read : Except StorageError Bytes) (op : IndexOp) :
    (op.afterPull L l read).left < 6 := by
  cases op with
  | publish p ck =>
    simp only [IndexOp.afterPull]
    cases publishContents L p ck read <;> simp [Pc.left]
  | yank name version flag =>
    simp only [IndexOp.afterPull]
    cases yankContents L version flag read <;> simp [Pc.left]
  | confirm name version => simp [IndexOp.afterPull, Pc.left]

section Machine

variable {ι : Type} [DecidableEq ι] {L : Libs} {ops : ι → IndexOp} {s s' : State ι} {a : Label ι}
  {i : ι}

/-- **A step takes its call on**, and no other. -/
theorem left_step (hs : step L ops s a = some s') :
    (s'.pc a.call).left < (s.pc a.call).left ∧ ∀ j, j ≠ a.call → s'.pc j = s.pc j := by
  have hmove : ∀ {i : ι} {old pc : Pc}, s.pc i = old → pc.left < old.left →
      ((Function.update s.pc i pc) i).left < (s.pc i).left ∧
        ∀ j, j ≠ i → Function.update s.pc i pc j = s.pc j := fun hp h =>
    ⟨by rwa [Function.update_self, hp], fun j hj => Function.update_of_ne hj _ _⟩
  cases step_cases hs with
  | refused hp => exact hmove hp (by simp [Pc.left])
  | looked hp => exact hmove hp (by simp [Pc.left])
  | acquired hp => exact hmove hp (by simp [Pc.left])
  | pulled hp => exact hmove hp (left_afterPull L _ _ _)
  | stored hp => exact hmove hp (by simp [Pc.left])
  | notStored hp => exact hmove hp (by simp [Pc.left])
  | put hp => exact hmove hp (by simp [Pc.left])
  | notPut hp => exact hmove hp (by simp [Pc.left])
  | released hp => exact hmove hp (by simp [Pc.left])
  | dropped hp => exact hmove hp (by simp [Pc.left])
  | finished hp => exact hmove hp (by simp [Pc.left])

/-! ## Which steps are enabled -/

/-- A call that has acquired its lock can go on. -/
theorem exists_step_of_acquired {l : ℕ} {m : Mode} (hm : m ≠ .arc)
    (hi : (s.pc i).hold (ops i).mode = some (l, m)) :
    ∃ a s', a.call = i ∧ step L ops s a = some s' := by
  cases hp : s.pc i with
  | holding l => exact ⟨.pull i false, _, rfl, by simp only [step, hp]; rfl⟩
  | planned l c => exact ⟨.endStep i (.ok ()), _, rfl, by simp only [step, hp]; rfl⟩
  | writing l c => exact ⟨.put i true, _, rfl, by simp only [step, hp]; rfl⟩
  | leaving l r => exact ⟨.release i, _, rfl, by simp only [step, hp]; rfl⟩
  | _ =>
    rw [hp] at hi
    simp [Pc.hold, Ne.symm hm] at hi

omit [DecidableEq ι] in
/-- A lock that cannot be acquired is held by some call. -/
theorem exists_acquired (h : Inv L ops s) {l : ℕ} {m : Mode} (hm : m ≠ .arc)
    (hc : ¬ s.locks.canAcquire l m = true) :
    ∃ j m', m' ≠ .arc ∧ (s.pc j).hold (ops j).mode = some (l, m') := by
  cases hw : (s.locks.lock l).writer with
  | some j => exact ⟨j, .write, by simp, (h.locks.writer j l).mp hw⟩
  | none =>
    have hreaders : (s.locks.lock l).readers ≠ ∅ := fun he => hc <| by
      cases m with
      | arc => exact absurd rfl hm
      | read => rw [AccessLocks.canAcquire, hw]; rfl
      | write => rw [AccessLocks.canAcquire, hw, he]; rfl
    obtain ⟨j, hj⟩ := Finset.nonempty_iff_ne_empty.mpr hreaders
    exact ⟨j, .read, by simp, (h.locks.readers j l).mp hj⟩

omit [DecidableEq ι] in
/-- Calls with one lock are calls on one crate. -/
theorem Inv.key_eq (h : Inv L ops s) {i j : ι} {l : ℕ} {m m' : Mode}
    (hi : (s.pc i).hold (ops i).mode = some (l, m))
    (hj : (s.pc j).hold (ops j).mode = some (l, m')) : (ops i).key = (ops j).key := by
  obtain ⟨x, hx⟩ := h.allowed i _ hi
  obtain ⟨y, hy⟩ := h.allowed j _ hj
  exact IndexOp.key_eq_of_relPath hx hy ((h.object_eq hi).symm.trans (h.object_eq hj))

/-- **A call that has not returned can go on**, or a call on the same crate can, which holds the
lock that it waits for. -/
theorem exists_step (h : Inv L ops s) (hi : ∀ r, s.pc i ≠ .returned r) :
    ∃ a s', (ops a.call).key = (ops i).key ∧ step L ops s a = some s' := by
  have hof : (∃ a s', Label.call a = i ∧ step L ops s a = some s') →
      ∃ a s', (ops (Label.call a)).key = (ops i).key ∧ step L ops s a = some s' :=
    fun ⟨a, s', ha, hs⟩ => ⟨a, s', by rw [ha], hs⟩
  cases hp : s.pc i with
  | idle =>
    refine hof ⟨.start i, ?_⟩
    cases hm : accessCrate (ops i).crateName with
    | error e => exact ⟨_, rfl, by simp only [step, hp, hm]; rfl⟩
    | ok m => exact ⟨_, rfl, by simp only [step, hp, hm]; rfl⟩
  | waiting l =>
    have hhold : (s.pc i).hold (ops i).mode = some (l, .arc) := by rw [hp]; rfl
    by_cases hc : s.locks.canAcquire l (ops i).mode = true
    · exact hof ⟨.acquire i, _, rfl, by simp only [step, hp, hc, if_true]; rfl⟩
    · obtain ⟨j, m', hm', hj⟩ := exists_acquired h (by cases ops i <;> simp [IndexOp.mode]) hc
      obtain ⟨a, s', ha, hs⟩ := exists_step_of_acquired hm' hj
      exact ⟨a, s', by rw [ha, h.key_eq hj hhold], hs⟩
  | unlocked l r => exact hof ⟨.dropArc i, _, rfl, by simp only [step, hp]; rfl⟩
  | dropped r => exact hof ⟨.onUnlocked i, _, rfl, by simp only [step, hp]; rfl⟩
  | returned r => exact absurd hp (hi r)
  | _ =>
    refine hof (exists_step_of_acquired (m := (ops i).mode) ?_ (by rw [hp]; rfl))
    cases ops i <;> simp [IndexOp.mode]

/-! ## What becomes of a call -/

/-- Only a publish call has an `end_step` to run. -/
theorem publish_of_planned (hs : step L ops s a = some s')
    (hplanned : ∀ j l c, s.pc j = .planned l c → ∃ p ck, ops j = .publish p ck) {j : ι} {l : ℕ}
    {c : Contents} (hj : s'.pc j = .planned l c) : ∃ p ck, ops j = .publish p ck := by
  have hmove : ∀ {i : ι} {pc : Pc}, (pc = .planned l c → ∃ p ck, ops i = .publish p ck) →
      Function.update s.pc i pc j = .planned l c → ∃ p ck, ops j = .publish p ck :=
    fun {i pc} hpc => moved_or_stayed (Q := fun pc => pc = .planned l c → _)
      (fun hij => hij ▸ hpc) fun _ => hplanned j l c
  cases step_cases hs with
  | @pulled i l' fails hp =>
    refine hmove (fun h => ?_) hj
    cases hop : ops i with
    | publish p ck => exact ⟨p, ck, rfl⟩
    | yank name version flag =>
      rw [hop] at h
      simp only [IndexOp.afterPull] at h
      split at h <;> cases h
    | confirm name version =>
      rw [hop] at h
      cases h
  | _ => exact hmove (fun h => by cases h) hj

/-- A call that does not write never returns that it is done. -/
theorem result_of_read (h : Inv L ops s) (hs : step L ops s a = some s')
    (hread : ∀ j, (ops j).mode = .read → (s.pc j).result ≠ some (.ok .done)) {j : ι}
    (hj : (ops j).mode = .read) : (s'.pc j).result ≠ some (.ok .done) := by
  have hmove : ∀ {i : ι} {pc : Pc}, (i = j → pc.result ≠ some (.ok .done)) →
      (Function.update s.pc i pc j).result ≠ some (.ok .done) := fun {i pc} hpc =>
    moved_or_stayed (Q := fun pc => pc.result ≠ some (.ok .done)) hpc fun _ => hread j hj
  have hsame : ∀ {i : ι} {old pc : Pc}, s.pc i = old → pc.result = old.result →
      (Function.update s.pc i pc j).result ≠ some (.ok .done) := fun {i old pc} hp hpc =>
    hmove fun hij => by rw [hpc, ← hp, hij]; exact hread j hj
  cases step_cases hs with
  | refused hp => exact hmove fun _ => by simp [Pc.result]
  | looked hp => exact hsame hp rfl
  | acquired hp => exact hsame hp rfl
  | @pulled i l fails hp =>
    refine hmove fun hij => ?_
    subst hij
    cases hop : ops i with
    | confirm name version =>
      simp only [IndexOp.afterPull, Pc.result]
      cases existsAnswer L version (pullFile fails s.files (s.locks.lock l).object) <;>
        simp [Except.map]
    | _ => simp [hop, IndexOp.mode] at hj
  | stored hp => exact hsame hp rfl
  | notStored hp => exact hmove fun _ => by simp [Pc.result]
  | @put i l c hp =>
    refine hmove fun hij => ?_
    have hwrite := IndexOp.mode_of_writes (h.ready i l c (Or.inr hp))
    rw [hij, hj] at hwrite
    cases hwrite
  | notPut hp => exact hmove fun _ => by simp [Pc.result]
  | released hp => exact hsame hp rfl
  | dropped hp => exact hsame hp rfl
  | finished hp => exact hsame hp rfl

/-! ## The users of the lock map -/

/-- A call as a user of the lock map. -/
def Pc.lockUser (m : Mode) : Pc → LockUser
  | .idle => .idle
  | .waiting l => .live l .arc
  | .holding l => .live l m
  | .planned l _ => .live l m
  | .writing l _ => .live l m
  | .leaving l _ => .live l m
  | .unlocked l _ => .live l .arc
  | .dropped _ => .dropped
  | .returned _ => .idle

variable (ops) in
omit [DecidableEq ι] in
def State.lockMap (s : State ι) : LockMap ι String :=
  ⟨s.locks, fun i => (s.pc i).lockUser (ops i).mode⟩

variable (ops) in
/-- A step of the call `i` is a step of the user `i`. -/
theorem lockMap_move (s : State ι) (i : ι) (pc : Pc) (locks : AccessLocks ι String) :
    State.lockMap ops { s.move i pc with locks } =
      (s.lockMap ops).move i (pc.lockUser (ops i).mode) locks :=
  congrArg (LockMap.mk locks) (funext fun j =>
    Function.apply_update (fun j pc => Pc.lockUser (ops j).mode pc) s.pc i pc j)

/-- A step of a call that leaves its lock alone. -/
theorem lockMap_of_stays {old pc : Pc} (hp : s.pc i = old)
    (h : pc.lockUser (ops i).mode = old.lockUser (ops i).mode) :
    State.lockMap ops (s.move i pc) = s.lockMap ops := by
  refine (lockMap_move ops s i pc s.locks).trans (congrArg (LockMap.mk s.locks) ?_)
  refine Function.update_eq_self_iff.mpr ?_
  change _ = (s.pc i).lockUser (ops i).mode
  rw [h, hp]

/-- **The calls are users of the lock map**: a step of a call is a step of its user, or leaves the
map and its users as they are. -/
theorem lockMap_step (hs : step L ops s a = some s') :
    s'.lockMap ops = s.lockMap ops ∨
      ∃ b, LockMap.step (fun i => (ops i).key) keyPath (s.lockMap ops) b =
        some (s'.lockMap ops) := by
  have huser : ∀ {i : ι} {old : Pc}, s.pc i = old →
      (s.lockMap ops).user i = old.lockUser (ops i).mode := fun hp => by rw [← hp]; rfl
  cases step_cases hs with
  | refused hp => exact Or.inl (lockMap_of_stays hp rfl)
  | @looked i m hp hm =>
    obtain ⟨hkey, hpath⟩ := IndexOp.accessCrate_eq hm
    refine Or.inr ⟨.rwlockForKey i, ?_⟩
    rw [lockMap_move, hkey, hpath]
    simp only [LockMap.step, huser hp, Pc.lockUser]
    rfl
  | @acquired i l hp hc =>
    refine Or.inr ⟨.acquire i (ops i).mode, ?_⟩
    rw [lockMap_move]
    simp only [LockMap.step, huser hp, Pc.lockUser]
    exact if_pos hc
  | @pulled i l fails hp =>
    refine Or.inl (lockMap_of_stays hp ?_)
    cases ops i <;> simp only [IndexOp.afterPull] <;> (try split) <;> rfl
  | stored hp => exact Or.inl (lockMap_of_stays hp rfl)
  | notStored hp => exact Or.inl (lockMap_of_stays hp rfl)
  | put hp => exact Or.inl (lockMap_of_stays hp rfl)
  | notPut hp => exact Or.inl (lockMap_of_stays hp rfl)
  | @released i l r hp =>
    refine Or.inr ⟨.release i, ?_⟩
    rw [lockMap_move]
    simp only [LockMap.step, huser hp, Pc.lockUser]
    rfl
  | @dropped i l r hp =>
    refine Or.inr ⟨.dropArc i, ?_⟩
    rw [lockMap_move]
    simp only [LockMap.step, huser hp, Pc.lockUser]
    rfl
  | @finished i r hp =>
    refine Or.inr ⟨.onUnlocked i, ?_⟩
    rw [lockMap_move]
    simp only [LockMap.step, huser hp, Pc.lockUser]
    rfl

theorem tidy_of_step (h : LockMap.Tidy (fun i => (ops i).key) keyPath (s.lockMap ops))
    (hs : step L ops s a = some s') :
    LockMap.Tidy (fun i => (ops i).key) keyPath (s'.lockMap ops) := by
  rcases lockMap_step hs with he | ⟨b, hb⟩
  · rwa [he]
  · exact LockMap.tidy_step h hb

end Machine

end FsIndex

end Freighter
