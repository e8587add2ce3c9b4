import Freighter.FsIndex.Locks
import Freighter.Lib.Run

/-!
# The users of the lock map

Any number of users, each with its key: a user looks its lock up, acquires and releases it any
number of times, drops its reference and later cleans up the map. A run is any interleaving of
these steps.

* `LockUser`, `LockMap`, `LockMap.step`;
* `LockMap.Tidy`: the locks agree with their users, and every entry of the map has a key of its own
  and a user who will clean it up; **`tidy_step`**;
* **`lock_map`**: what holds in every state of a run.
-/

namespace Freighter

namespace FsIndex

/-- Where a user is: `dropped` has dropped its reference and has not cleaned up yet. -/
inductive LockUser where
  | idle
  | live (l : ℕ) (m : Mode)
  | dropped
deriving DecidableEq

/-- The lock of a user, and how it has acquired it. -/
def LockUser.hold : LockUser → Option (ℕ × Mode)
  | .idle => none
  | .live l m => some (l, m)
  | .dropped => none

theorem LockUser.hold_eq_some {u : LockUser} {l : ℕ} {m : Mode} :
    u.hold = some (l, m) ↔ u = .live l m := by
  cases u <;> simp [LockUser.hold]

/-- The map with its users. -/
structure LockMap (ι T : Type) where
  locks : AccessLocks ι T
  user : ι → LockUser

/-- One step of a user. -/
inductive LockStep (ι : Type) where
  | rwlockForKey (i : ι)
  | acquire (i : ι) (m : Mode)
  | release (i : ι)
  | dropArc (i : ι)
  | onUnlocked (i : ι)

namespace LockMap

variable {ι T : Type} [DecidableEq ι]

/-! ## The steps -/

omit [DecidableEq ι] in
/-- The empty map. -/
def initial [Inhabited T] : LockMap ι T := ⟨.new, fun _ => .idle⟩

/-- User `i` is now at `u`, with these locks. -/
def move (s : LockMap ι T) (i : ι) (u : LockUser) (locks : AccessLocks ι T) : LockMap ι T :=
  ⟨locks, Function.update s.user i u⟩

/-- `key i` is the key of user `i`, and `object k` the object behind the lock of `k`. -/
def step (key : ι → String) (object : String → T) (s : LockMap ι T) :
    LockStep ι → Option (LockMap ι T)
  | .rwlockForKey i =>
    match s.user i with
    | .idle =>
      let (l, locks) := s.locks.rwlockForKey i (key i) (object (key i))
      some (s.move i (.live l .arc) locks)
    | _ => none
  | .acquire i m =>
    match s.user i with
    | .live l .arc =>
      if s.locks.canAcquire l m then some (s.move i (.live l m) (s.locks.acquire i l m)) else none
    | _ => none
  | .release i =>
    match s.user i with
    | .live l m => some (s.move i (.live l .arc) (s.locks.release i l m))
    | _ => none
  | .dropArc i =>
    match s.user i with
    | .live l .arc => some (s.move i .dropped (s.locks.dropArc i l))
    | _ => none
  | .onUnlocked i =>
    match s.user i with
    | .dropped => some (s.move i .idle (s.locks.onUnlocked (key i)))
    | _ => none

/-- Every way in which a step changes the state. -/
inductive Move (key : ι → String) (object : String → T) (s : LockMap ι T) :
    LockStep ι → LockMap ι T → Prop
  | looked {i : ι} (hu : s.user i = .idle) :
      Move key object s (.rwlockForKey i)
        (s.move i (.live (s.locks.rwlockForKey i (key i) (object (key i))).1 .arc)
          (s.locks.rwlockForKey i (key i) (object (key i))).2)
  | acquired {i : ι} {l : ℕ} {m : Mode} (hu : s.user i = .live l .arc)
      (h : s.locks.canAcquire l m = true) :
      Move key object s (.acquire i m) (s.move i (.live l m) (s.locks.acquire i l m))
  | released {i : ι} {l : ℕ} {m : Mode} (hu : s.user i = .live l m) :
      Move key object s (.release i) (s.move i (.live l .arc) (s.locks.release i l m))
  | dropped {i : ι} {l : ℕ} (hu : s.user i = .live l .arc) :
      Move key object s (.dropArc i) (s.move i .dropped (s.locks.dropArc i l))
  | cleaned {i : ι} (hu : s.user i = .dropped) :
      Move key object s (.onUnlocked i) (s.move i .idle (s.locks.onUnlocked (key i)))

variable {key : ι → String} {object : String → T} {s s' : LockMap ι T}

theorem step_cases {a : LockStep ι} (h : step key object s a = some s') :
    Move key object s a s' := by
  cases a with
  | rwlockForKey i =>
    simp only [step] at h
    cases hu : s.user i <;> simp only [hu, reduceCtorEq] at h
    cases h
    exact .looked hu
  | acquire i m =>
    simp only [step] at h
    split at h
    · rename_i l hu
      split_ifs at h with hc
      cases h
      exact .acquired hu hc
    · cases h
  | release i =>
    simp only [step] at h
    cases hu : s.user i <;> simp only [hu, reduceCtorEq] at h
    cases h
    exact .released hu
  | dropArc i =>
    simp only [step] at h
    split at h
    · rename_i l hu
      cases h
      exact .dropped hu
    · cases h
  | onUnlocked i =>
    simp only [step] at h
    cases hu : s.user i <;> simp only [hu, reduceCtorEq] at h
    cases h
    exact .cleaned hu

theorem hold_move (s : LockMap ι T) (i : ι) (u : LockUser) (locks : AccessLocks ι T) :
    (fun j => ((s.move i u locks).user j).hold) =
      Function.update (fun j => (s.user j).hold) i u.hold := by
  funext j
  exact Function.apply_update (fun _ => LockUser.hold) s.user i u j

/-! ## The map -/

/-- Looking a lock up leaves the map as it is, or puts a new lock at the key. -/
theorem locks_rwlockForKey (a : AccessLocks ι T) (i : ι) (k : String) (o : T) :
    (a.rwlockForKey i k o).2.locks = a.locks ∧
        a.locks k = some (a.rwlockForKey i k o).1 ∨
      (a.rwlockForKey i k o).2.locks = Function.update a.locks k (some a.next) := by
  unfold AccessLocks.rwlockForKey
  cases hk : a.locks k with
  | none => exact Or.inr rfl
  | some l =>
    by_cases hc : 0 < (a.lock l).strongCount
    · simp only [hc, if_true]
      exact Or.inl ⟨rfl, trivial⟩
    · simp only [hc, if_false]
      exact Or.inr rfl

theorem locks_acquire (a : AccessLocks ι T) (i : ι) (l : ℕ) (m : Mode) :
    (a.acquire i l m).locks = a.locks := by
  cases m <;> rfl

theorem locks_release (a : AccessLocks ι T) (i : ι) (l : ℕ) (m : Mode) :
    (a.release i l m).locks = a.locks := by
  cases m <;> rfl

omit [DecidableEq ι] in
/-- Cleaning up leaves the entry of the key only while its lock has users, and the other entries
alone. -/
theorem locks_onUnlocked (a : AccessLocks ι T) (k : String) {k' : String} {l : ℕ}
    (h : (a.onUnlocked k).locks k' = some l) :
    a.locks k' = some l ∧ (k' = k → (a.lock l).users ≠ ∅) := by
  unfold AccessLocks.onUnlocked at h
  cases hk : a.locks k with
  | none =>
    rw [hk] at h
    refine ⟨h, ?_⟩
    rintro rfl
    exact absurd (hk.symm.trans h) (by simp)
  | some l' =>
    rw [hk] at h
    simp only at h
    split_ifs at h with hc
    · by_cases hkk : k' = k
      · subst hkk
        simp only [Function.update_self, reduceCtorEq] at h
      · simp only [Function.update_of_ne hkk] at h
        exact ⟨h, fun e => absurd e hkk⟩
    · refine ⟨h, ?_⟩
      rintro rfl
      cases hk.symm.trans h
      exact fun he => hc (Finset.card_eq_zero.mpr he)

/-! ## The invariant -/

omit [DecidableEq ι] in
variable (key object) in
/-- The locks agree with their users; no two keys have the same lock; and every entry of the map
has a user of its key who has not cleaned up yet. -/
structure Tidy (s : LockMap ι T) : Prop where
  locks : s.locks.Inv key object fun i => (s.user i).hold
  separate : ∀ k k' l, s.locks.locks k = some l → s.locks.locks k' = some l → k = k'
  claimed : ∀ k l, s.locks.locks k = some l → ∃ i, key i = k ∧ s.user i ≠ .idle

omit [DecidableEq ι] in
theorem tidy_initial [Inhabited T] : Tidy key object (initial : LockMap ι T) where
  locks := AccessLocks.inv_new
  separate _ _ _ h _ := nomatch h
  claimed _ _ h := nomatch h

/-- A user who moves on, but not away, goes on to claim its entries. -/
theorem claimed_move {i : ι} {u : LockUser} {locks : AccessLocks ι T} {k : String}
    (hu : u ≠ .idle) (h : ∃ j, key j = k ∧ s.user j ≠ .idle) :
    ∃ j, key j = k ∧ (s.move i u locks).user j ≠ .idle := by
  obtain ⟨j, hj, hne⟩ := h
  refine ⟨j, hj, ?_⟩
  simp only [move, Function.update_apply]
  split_ifs
  · exact hu
  · exact hne

/-- A step that leaves the map as it is. -/
theorem Tidy.of_locks_eq (h : Tidy key object s) {i : ι} {u : LockUser} {locks : AccessLocks ι T}
    (hinv : locks.Inv key object (Function.update (fun j => (s.user j).hold) i u.hold))
    (hlocks : locks.locks = s.locks.locks) (hu : u ≠ .idle) :
    Tidy key object (s.move i u locks) where
  locks := by rw [hold_move]; exact hinv
  separate := by
    change ∀ k k' l, locks.locks k = some l → locks.locks k' = some l → k = k'
    rw [hlocks]
    exact h.separate
  claimed k l hk := by
    change locks.locks k = some l at hk
    rw [hlocks] at hk
    exact claimed_move hu (h.claimed k l hk)

theorem tidy_looked (h : Tidy key object s) {i : ι} (hu : s.user i = .idle) :
    Tidy key object (s.move i (.live (s.locks.rwlockForKey i (key i) (object (key i))).1 .arc)
      (s.locks.rwlockForKey i (key i) (object (key i))).2) := by
  have hinv := h.locks.rwlockForKey (i := i) (congrArg LockUser.hold hu)
  rcases locks_rwlockForKey s.locks i (key i) (object (key i)) with ⟨hlocks, -⟩ | hlocks
  · exact h.of_locks_eq hinv hlocks (by simp)
  · refine ⟨by rw [hold_move]; exact hinv, ?_, ?_⟩
    · -- the number of the new lock is not in the map
      have hfresh : ∀ k, s.locks.locks k ≠ some s.locks.next := fun k hk =>
        (h.locks.objects k _ hk).1.ne rfl
      intro k k' l hk hk'
      simp only [move, hlocks, Function.update_apply] at hk hk'
      split_ifs at hk hk' with h1 h2 h2
      · rw [h1, h2]
      · exact absurd (hk'.trans hk.symm) (hfresh k')
      · exact absurd (hk.trans hk'.symm) (hfresh k)
      · exact h.separate k k' l hk hk'
    · intro k l hk
      simp only [move, hlocks, Function.update_apply] at hk
      split_ifs at hk with h1
      · refine ⟨i, h1.symm, ?_⟩
        simp only [move, Function.update_self]
        simp
      · exact claimed_move (by simp) (h.claimed k l hk)

theorem tidy_cleaned (h : Tidy key object s) {i : ι} (hu : s.user i = .dropped) :
    Tidy key object (s.move i .idle (s.locks.onUnlocked (key i))) := by
  have hhold : Function.update (fun j => (s.user j).hold) i LockUser.idle.hold =
      fun j => (s.user j).hold := by
    rw [Function.update_eq_self_iff, hu]
    rfl
  have hback : ∀ k l, (s.locks.onUnlocked (key i)).locks k = some l →
      s.locks.locks k = some l ∧ (k = key i → (s.locks.lock l).users ≠ ∅) :=
    fun _ _ => locks_onUnlocked s.locks (key i)
  refine ⟨by rw [hold_move, hhold]; exact h.locks.onUnlocked (key i), ?_, ?_⟩
  · intro k k' l hk hk'
    exact h.separate k k' l (hback k l hk).1 (hback k' l hk').1
  · intro k l hk
    obtain ⟨hold, husers⟩ := hback k l hk
    by_cases hki : k = key i
    · -- the entry stays because someone still uses its lock
      obtain ⟨j, hj⟩ := Finset.nonempty_iff_ne_empty.mpr (husers hki)
      obtain ⟨m, hm⟩ := (h.locks.users j l).mp hj
      have hkj : key j = k := h.separate _ _ l (h.locks.mapped j l m hm) hold
      have hji : j ≠ i := by
        rintro rfl
        rw [hu] at hm
        cases hm
      refine ⟨j, hkj, ?_⟩
      simp only [move, Function.update_of_ne hji]
      rw [LockUser.hold_eq_some.mp hm]
      simp
    · obtain ⟨j, hj, hne⟩ := h.claimed k l hold
      have hji : j ≠ i := fun e => hki (by rw [← hj, e])
      refine ⟨j, hj, ?_⟩
      simp only [move, Function.update_of_ne hji]
      exact hne

/-- **A step keeps the map tidy.** -/
theorem tidy_step {a : LockStep ι} (h : Tidy key object s) (hs : step key object s a = some s') :
    Tidy key object s' := by
  cases step_cases hs with
  | looked hu => exact tidy_looked h hu
  | acquired hu hc =>
    exact h.of_locks_eq (h.locks.acquire (LockUser.hold_eq_some.mpr hu) hc)
      (locks_acquire _ _ _ _) (by simp)
  | released hu =>
    exact h.of_locks_eq (h.locks.release (LockUser.hold_eq_some.mpr hu))
      (locks_release _ _ _ _) (by simp)
  | dropped hu =>
    exact h.of_locks_eq (h.locks.dropArc (LockUser.hold_eq_some.mpr hu)) rfl (by simp)
  | cleaned hu => exact tidy_cleaned h hu

omit [DecidableEq ι] in
/-- When every user has come and gone, the map is empty. -/
theorem Tidy.empty (h : Tidy key object s) (hidle : ∀ i, s.user i = .idle) (k : String) :
    s.locks.locks k = none := by
  cases hk : s.locks.locks k with
  | none => rfl
  | some l =>
    obtain ⟨i, -, hne⟩ := h.claimed k l hk
    exact absurd (hidle i) hne

/-- **The lock map gives one lock per key and does not leak.** In every state of every run, live
users of equal keys have the same lock; a user who has acquired its lock for writing is the only one
of its key to have acquired it; the entry of a live user's key is its lock; and when all users have
come and gone the map is empty. -/
theorem lock_map [Inhabited T] (key : ι → String) (object : String → T) (steps : List (LockStep ι))
    {s : LockMap ι T} (h : Run.exec (step key object) initial steps = some s) :
    (∀ i j l m l' m', s.user i = .live l m → s.user j = .live l' m' → key i = key j → l = l') ∧
    (∀ i j l l' m', s.user i = .live l .write → s.user j = .live l' m' → key i = key j →
      m' ≠ .arc → i = j) ∧
    (∀ i l m, s.user i = .live l m → s.locks.locks (key i) = some l) ∧
    ((∀ i, s.user i = .idle) → ∀ k, s.locks.locks k = none) := by
  have ht : Tidy key object s := Run.exec_invariant (fun _ _ _ => tidy_step) h tidy_initial
  refine ⟨fun i j l m l' m' hi hj hk => ?_, fun i j l l' m' hi hj hk hm => ?_,
    fun i l m hi => ?_, ht.empty⟩
  · exact ht.locks.same_lock (LockUser.hold_eq_some.mpr hi) (LockUser.hold_eq_some.mpr hj) hk
  · exact ht.locks.excludes (LockUser.hold_eq_some.mpr hi) (LockUser.hold_eq_some.mpr hj) hk hm
  · exact ht.locks.mapped i l m (LockUser.hold_eq_some.mpr hi)

/-- A user cleans up after another has replaced the dead entry: the new entry stays. -/
theorem lock_map_late :
    let steps : List (LockStep ℕ) :=
      [.rwlockForKey 0, .dropArc 0, .rwlockForKey 1, .acquire 1 .write, .onUnlocked 0]
    ∃ s : LockMap ℕ String, Run.exec (step (fun _ => "foo") id) initial steps = some s ∧
      s.locks.locks "foo" = some 1 := by
  intro steps
  refine ⟨_, rfl, ?_⟩
  exact (lock_map (fun _ => "foo") id steps rfl).2.2.1 1 1 .write rfl

end LockMap

end FsIndex

end Freighter
