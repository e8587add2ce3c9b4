import Mathlib.Data.Finset.Card
import Mathlib.Logic.Function.Basic

/-!
# The locks of the index files

`AccessLocks` maps a key to a weak reference to its lock. A user looks the lock up and keeps a
strong reference, acquires it for reading or for writing, releases it, drops the reference and then
cleans up the map; each of these is one step.

* `AccessLocks.rwlockForKey`, `AccessLocks.onUnlocked` and the steps in between;
* `AccessLocks.Inv`: what the map and the locks say about the users;
* **`AccessLocks.Inv.excludes`**: a writer of a key is alone.

`hold i` is what user `i` has: a lock, and whether it has acquired it.
-/

namespace Freighter

namespace FsIndex

/-- What a user has of a lock: the reference alone, or also a guard. -/
inductive Mode where
  | arc
  | read
  | write
deriving DecidableEq

/-- A lock: the object it guards, the users with a strong reference, the guards given out. -/
structure RwLock (ι T : Type) where
  object : T
  users : Finset ι
  writer : Option ι
  readers : Finset ι

def RwLock.strongCount {ι T : Type} (l : RwLock ι T) : ℕ := l.users.card

/-- The map of weak references, and the locks that were created so far, numbered. -/
structure AccessLocks (ι T : Type) where
  locks : String → Option ℕ
  lock : ℕ → RwLock ι T
  next : ℕ

namespace AccessLocks

variable {ι T : Type} [DecidableEq ι]

/-! ## The steps -/

omit [DecidableEq ι] in
/-- `AccessLocks::new`. No lock was created yet. -/
def new [Inhabited T] : AccessLocks ι T where
  locks _ := none
  lock _ := ⟨default, ∅, none, ∅⟩
  next := 0

def setLock (a : AccessLocks ι T) (l : ℕ) (lock : RwLock ι T) : AccessLocks ι T :=
  { a with lock := Function.update a.lock l lock }

/-- A new lock for the key, used by `i`. -/
def create (a : AccessLocks ι T) (i : ι) (key : String) (object : T) : ℕ × AccessLocks ι T :=
  (a.next, {
    locks := Function.update a.locks key (some a.next)
    lock := Function.update a.lock a.next ⟨object, {i}, none, ∅⟩
    next := a.next + 1 })

/-- `rwlock_for_key`, which upgrades the weak reference if it still can. -/
def rwlockForKey (a : AccessLocks ι T) (i : ι) (key : String) (object : T) :
    ℕ × AccessLocks ι T :=
  match a.locks key with
  | some l =>
    if 0 < (a.lock l).strongCount then
      (l, a.setLock l { a.lock l with users := insert i (a.lock l).users })
    else a.create i key object
  | none => a.create i key object

/-- Whether the lock can be acquired. -/
def canAcquire (a : AccessLocks ι T) (l : ℕ) : Mode → Bool
  | .arc => false
  | .read => (a.lock l).writer.isNone
  | .write => (a.lock l).writer.isNone && (a.lock l).readers.card == 0

def acquire (a : AccessLocks ι T) (i : ι) (l : ℕ) : Mode → AccessLocks ι T
  | .arc => a
  | .read => a.setLock l { a.lock l with readers := insert i (a.lock l).readers }
  | .write => a.setLock l { a.lock l with writer := some i }

/-- The guard is dropped. -/
def release (a : AccessLocks ι T) (i : ι) (l : ℕ) : Mode → AccessLocks ι T
  | .arc => a
  | .read => a.setLock l { a.lock l with readers := (a.lock l).readers.erase i }
  | .write => a.setLock l { a.lock l with writer := none }

/-- The strong reference is dropped. -/
def dropArc (a : AccessLocks ι T) (i : ι) (l : ℕ) : AccessLocks ι T :=
  a.setLock l { a.lock l with users := (a.lock l).users.erase i }

def onUnlocked (a : AccessLocks ι T) (key : String) : AccessLocks ι T :=
  match a.locks key with
  | some l =>
    if (a.lock l).strongCount = 0 then { a with locks := Function.update a.locks key none } else a
  | none => a

/-! ## The invariant -/

/-- The locks agree with what the users hold: every user of a key has the lock of the map, which
guards the object of the key, and a writer excludes the readers. -/
structure Inv (key : ι → String) (object : String → T) (a : AccessLocks ι T)
    (hold : ι → Option (ℕ × Mode)) : Prop where
  users : ∀ i l, i ∈ (a.lock l).users ↔ ∃ m, hold i = some (l, m)
  writer : ∀ i l, (a.lock l).writer = some i ↔ hold i = some (l, .write)
  readers : ∀ i l, i ∈ (a.lock l).readers ↔ hold i = some (l, .read)
  exclusive : ∀ l, (a.lock l).writer ≠ none → (a.lock l).readers = ∅
  mapped : ∀ i l m, hold i = some (l, m) → a.locks (key i) = some l
  objects : ∀ k l, a.locks k = some l → l < a.next ∧ (a.lock l).object = object k

variable {key : ι → String} {object : String → T} {a : AccessLocks ι T}
  {hold : ι → Option (ℕ × Mode)} {i j : ι} {l : ℕ} {m : Mode}

omit [DecidableEq ι] in
theorem inv_new [Inhabited T] : Inv key object (new : AccessLocks ι T) fun _ => none where
  users i l := by simp [new]
  writer i l := by simp [new]
  readers i l := by simp [new]
  exclusive l h := absurd rfl h
  mapped i l m h := by cases h
  objects k l h := by cases h

namespace Inv

omit [DecidableEq ι] in
/-- The object of a user's lock. -/
theorem object_eq (h : Inv key object a hold) (hi : hold i = some (l, m)) :
    (a.lock l).object = object (key i) := (h.objects _ _ (h.mapped i l m hi)).2

omit [DecidableEq ι] in
theorem lt_next (h : Inv key object a hold) (hi : hold i = some (l, m)) : l < a.next :=
  (h.objects _ _ (h.mapped i l m hi)).1

omit [DecidableEq ι] in
/-- **Equal keys, equal locks.** -/
theorem same_lock (h : Inv key object a hold) {l' : ℕ} {m' : Mode} (hi : hold i = some (l, m))
    (hj : hold j = some (l', m')) (hk : key i = key j) : l = l' := by
  have h1 := h.mapped i l m hi
  rw [hk, h.mapped j l' m' hj] at h1
  exact (Option.some.inj h1).symm

omit [DecidableEq ι] in
/-- **A writer of a key is alone**: no one else has acquired the lock of the key. -/
theorem excludes (h : Inv key object a hold) {l' : ℕ} {m' : Mode}
    (hi : hold i = some (l, .write)) (hj : hold j = some (l', m')) (hk : key i = key j)
    (hm : m' ≠ .arc) : i = j := by
  cases h.same_lock hi hj hk
  have hw := (h.writer i l).mpr hi
  cases m' with
  | arc => exact absurd rfl hm
  | write => exact Option.some.inj (hw.symm.trans ((h.writer j l).mpr hj))
  | read =>
    have hr := (h.readers j l).mpr hj
    rw [h.exclusive l (by rw [hw]; exact Option.some_ne_none i)] at hr
    exact absurd hr (Finset.notMem_empty j)

omit [DecidableEq ι] in
theorem unused_next (h : Inv key object a hold) :
    (a.lock a.next).users = ∅ ∧ (a.lock a.next).writer = none ∧ (a.lock a.next).readers = ∅ := by
  have hno : ∀ i m, hold i ≠ some (a.next, m) := fun i m hi => (h.lt_next hi).ne rfl
  refine ⟨?_, ?_, ?_⟩
  · ext i
    simp only [h.users, Finset.notMem_empty, iff_false, not_exists]
    exact hno i
  · cases hw : (a.lock a.next).writer with
    | none => rfl
    | some i => exact absurd ((h.writer i _).mp hw) (hno i _)
  · ext i
    simp only [h.readers, Finset.notMem_empty, iff_false]
    exact hno i _

/-! ## The steps keep the invariant -/

/-- A fact `Q` about a user of a lock goes on to agree with what the users hold when the lock `l`
changes, and with it what user `i` holds. -/
theorem agrees_update {Q : RwLock ι T → ι → Prop} {R : Option (ℕ × Mode) → ℕ → Prop}
    {locks : ℕ → RwLock ι T} {lock : RwLock ι T} {hi : Option (ℕ × Mode)}
    (h : ∀ j l', Q (locks l') j ↔ R (hold j) l')
    (hlock : (Q lock i ↔ R hi l) ∧ ∀ j, j ≠ i → (Q lock j ↔ Q (locks l) j))
    (hother : ∀ l', l' ≠ l → (R (hold i) l' ↔ R hi l')) (j : ι) (l' : ℕ) :
    Q (Function.update locks l lock l') j ↔ R (Function.update hold i hi j) l' := by
  by_cases hl : l' = l
  · subst hl
    rw [Function.update_self]
    by_cases hj : j = i
    · rw [hj, Function.update_self]
      exact hlock.1
    · rw [Function.update_of_ne hj, hlock.2 j hj]
      exact h j _
  · rw [Function.update_of_ne hl, h j l']
    by_cases hj : j = i
    · rw [hj, Function.update_self]
      exact hother l' hl
    · rw [Function.update_of_ne hj]

theorem create (h : Inv key object a hold) (hi : hold i = none)
    (hfree : ∀ j l m, hold j = some (l, m) → key j ≠ key i) :
    Inv key object (a.create i (key i) (object (key i))).2
      (Function.update hold i (some ((a.create i (key i) (object (key i))).1, .arc))) := by
  obtain ⟨hu, hw, hr⟩ := h.unused_next
  refine ⟨?_, ?_, ?_, ?_, ?_, ?_⟩
  · refine agrees_update (Q := fun k j => j ∈ k.users) (R := fun x l => ∃ m, x = some (l, m))
      h.users ⟨by simp [AccessLocks.create], fun j hj => by simp [hu, hj]⟩ fun l' hl => ?_
    simp [hi, AccessLocks.create, Ne.symm hl]
  · refine agrees_update (Q := fun k j => k.writer = some j) (R := fun x l => x = some (l, .write))
      h.writer ⟨by simp, fun j hj => by simp [hw]⟩ fun l' hl => ?_
    simp [hi]
  · refine agrees_update (Q := fun k j => j ∈ k.readers) (R := fun x l => x = some (l, .read))
      h.readers ⟨by simp, fun j hj => by simp [hr]⟩ fun l' hl => ?_
    simp [hi]
  · exact (Function.forall_update_iff a.lock fun _ k => k.writer ≠ none → k.readers = ∅).mpr
      ⟨fun _ => rfl, fun l _ => h.exclusive l⟩
  · -- a user of another lock has another key
    refine (Function.forall_update_iff hold fun j x => ∀ l m, x = some (l, m) →
      Function.update a.locks (key i) (some a.next) (key j) = some l).mpr ⟨?_, ?_⟩
    · intro l m hl
      cases hl
      exact Function.update_self _ _ _
    · intro j _ l m hj
      rw [Function.update_of_ne (hfree j l m hj)]
      exact h.mapped j l m hj
  · refine (Function.forall_update_iff a.locks fun k x => ∀ l, x = some l →
      l < a.next + 1 ∧ (Function.update a.lock a.next ⟨object (key i), {i}, none, ∅⟩ l).object =
        object k).mpr ⟨?_, ?_⟩
    · intro l hl
      cases hl
      rw [Function.update_self]
      exact ⟨Nat.lt_succ_self _, rfl⟩
    · intro k _ l hk
      obtain ⟨h1, h2⟩ := h.objects k l hk
      rw [Function.update_of_ne h1.ne]
      exact ⟨by omega, h2⟩

/-- A step of user `i` on its lock `l`. -/
theorem setLock (h : Inv key object a hold) {lock : RwLock ι T} {hi : Option (ℕ × Mode)}
    (hobject : lock.object = (a.lock l).object)
    (hold_l : ∀ l' m, hold i = some (l', m) → l' = l) (hi_l : ∀ l' m, hi = some (l', m) → l' = l)
    (hmapped : ∀ m, hi = some (l, m) → a.locks (key i) = some l)
    (husers : (i ∈ lock.users ↔ ∃ m, hi = some (l, m)) ∧
      ∀ j, j ≠ i → (j ∈ lock.users ↔ j ∈ (a.lock l).users))
    (hwriter : (lock.writer = some i ↔ hi = some (l, .write)) ∧
      ∀ j, j ≠ i → (lock.writer = some j ↔ (a.lock l).writer = some j))
    (hreaders : (i ∈ lock.readers ↔ hi = some (l, .read)) ∧
      ∀ j, j ≠ i → (j ∈ lock.readers ↔ j ∈ (a.lock l).readers))
    (hexclusive : lock.writer ≠ none → lock.readers = ∅) :
    Inv key object (a.setLock l lock) (Function.update hold i hi) := by
  have hother : ∀ l' m, l' ≠ l → (hold i = some (l', m) ↔ hi = some (l', m)) := by
    intro l' m hne
    exact ⟨fun e => absurd (hold_l l' m e) hne, fun e => absurd (hi_l l' m e) hne⟩
  refine ⟨?_, ?_, ?_, ?_, ?_, ?_⟩
  · exact agrees_update (Q := fun k j => j ∈ k.users) (R := fun x l => ∃ m, x = some (l, m))
      h.users husers fun l' hl => exists_congr fun m => hother l' m hl
  · exact agrees_update (Q := fun k j => k.writer = some j) (R := fun x l => x = some (l, .write))
      h.writer hwriter fun l' hl => hother l' .write hl
  · exact agrees_update (Q := fun k j => j ∈ k.readers) (R := fun x l => x = some (l, .read))
      h.readers hreaders fun l' hl => hother l' .read hl
  · exact (Function.forall_update_iff a.lock fun _ k => k.writer ≠ none → k.readers = ∅).mpr
      ⟨hexclusive, fun l' _ => h.exclusive l'⟩
  · refine (Function.forall_update_iff hold fun j x => ∀ l' m, x = some (l', m) →
      a.locks (key j) = some l').mpr ⟨?_, fun j _ => h.mapped j⟩
    intro l' m hl
    cases hi_l l' m hl
    exact hmapped m hl
  · intro k l' hk
    obtain ⟨h1, h2⟩ := h.objects k l' hk
    have hobj := Function.apply_update (fun _ => RwLock.object) a.lock l lock l'
    rw [hobject, Function.update_eq_self] at hobj
    exact ⟨h1, hobj.trans h2⟩

theorem rwlockForKey (h : Inv key object a hold) (hi : hold i = none) :
    Inv key object (a.rwlockForKey i (key i) (object (key i))).2
      (Function.update hold i (some ((a.rwlockForKey i (key i) (object (key i))).1, .arc))) := by
  unfold AccessLocks.rwlockForKey
  cases hk : a.locks (key i) with
  | none =>
    refine h.create hi fun j l m hj he => ?_
    have := h.mapped j l m hj
    rw [he, hk] at this
    cases this
  | some l =>
    by_cases hc : 0 < (a.lock l).strongCount
    · simp only [hc, if_true]
      refine h.setLock rfl (by simp [hi]) (by simp) (fun _ _ => hk)
        ⟨by simp, fun j hj => by simp [hj]⟩ ⟨?_, fun j _ => Iff.rfl⟩ ⟨?_, fun j _ => Iff.rfl⟩
        (h.exclusive l)
      · simp [h.writer, hi]
      · simp [h.readers, hi]
    · simp only [hc, if_false]
      refine h.create hi fun j l' m hj he => ?_
      have hl := h.mapped j l' m hj
      rw [he, hk] at hl
      cases hl
      exact hc (Finset.card_pos.mpr ⟨j, (h.users j l).mpr ⟨m, hj⟩⟩)

theorem acquire (h : Inv key object a hold) (hi : hold i = some (l, .arc))
    (hc : a.canAcquire l m = true) :
    Inv key object (a.acquire i l m) (Function.update hold i (some (l, m))) := by
  have hmapped := h.mapped i l .arc hi
  have hu : i ∈ (a.lock l).users := (h.users i l).mpr ⟨.arc, hi⟩
  have hnw : (a.lock l).writer ≠ some i := fun e => by
    rw [h.writer, hi] at e
    cases e
  have hnr : i ∉ (a.lock l).readers := fun e => by
    rw [h.readers, hi] at e
    cases e
  cases m with
  | arc => cases hc
  | read =>
    have hnone : (a.lock l).writer = none := Option.isNone_iff_eq_none.mp hc
    exact h.setLock rfl (by simp [hi]) (by simp) (fun _ _ => hmapped)
      ⟨by simp [hu], fun j _ => Iff.rfl⟩ ⟨by simp [hnw], fun j _ => Iff.rfl⟩
      ⟨by simp, fun j hj => by simp [hj]⟩ (fun e => absurd hnone e)
  | write =>
    simp only [canAcquire, Bool.and_eq_true, Option.isNone_iff_eq_none, beq_iff_eq,
      Finset.card_eq_zero] at hc
    refine h.setLock rfl (by simp [hi]) (by simp) (fun _ _ => hmapped)
      ⟨by simp [hu], fun j _ => Iff.rfl⟩ ⟨by simp, fun j hj => ?_⟩
      ⟨by simp [hnr], fun j _ => Iff.rfl⟩ (fun _ => hc.2)
    simp [hc.1, Ne.symm hj]

theorem release (h : Inv key object a hold) (hi : hold i = some (l, m)) :
    Inv key object (a.release i l m) (Function.update hold i (some (l, .arc))) := by
  have hmapped := h.mapped i l m hi
  have hu : i ∈ (a.lock l).users := (h.users i l).mpr ⟨m, hi⟩
  cases m with
  | arc =>
    rw [← hi, Function.update_eq_self]
    exact h
  | read =>
    have hnw : (a.lock l).writer ≠ some i := fun e => by
      rw [h.writer, hi] at e
      cases e
    refine h.setLock rfl (by simp [hi]) (by simp) (fun _ _ => hmapped)
      ⟨by simp [hu], fun j _ => Iff.rfl⟩ ⟨by simp [hnw], fun j _ => Iff.rfl⟩
      ⟨by simp, fun j hj => by simp [hj]⟩ fun e => ?_
    simp only at e ⊢
    rw [h.exclusive l e, Finset.erase_empty]
  | write =>
    have hw : (a.lock l).writer = some i := (h.writer i l).mpr hi
    have hnr : i ∉ (a.lock l).readers := fun e => by
      rw [h.readers, hi] at e
      cases e
    refine h.setLock rfl (by simp [hi]) (by simp) (fun _ _ => hmapped)
      ⟨by simp [hu], fun j _ => Iff.rfl⟩ ⟨by simp, fun j hj => ?_⟩
      ⟨by simp [hnr], fun j _ => Iff.rfl⟩ (fun e => absurd rfl e)
    simp [hw, Ne.symm hj]

theorem dropArc (h : Inv key object a hold) (hi : hold i = some (l, .arc)) :
    Inv key object (a.dropArc i l) (Function.update hold i none) := by
  have hnw : (a.lock l).writer ≠ some i := fun e => by
    rw [h.writer, hi] at e
    cases e
  have hnr : i ∉ (a.lock l).readers := fun e => by
    rw [h.readers, hi] at e
    cases e
  exact h.setLock rfl (by simp [hi]) (by simp) (by simp)
    ⟨by simp, fun j hj => by simp [hj]⟩ ⟨by simp [hnw], fun j _ => Iff.rfl⟩
    ⟨by simp [hnr], fun j _ => Iff.rfl⟩ (h.exclusive l)

omit [DecidableEq ι] in
theorem onUnlocked (h : Inv key object a hold) (k : String) :
    Inv key object (a.onUnlocked k) hold := by
  unfold AccessLocks.onUnlocked
  cases hk : a.locks k with
  | none => exact h
  | some l =>
    by_cases hc : (a.lock l).strongCount = 0
    · simp only [hc, if_true]
      refine ⟨h.users, h.writer, h.readers, h.exclusive, fun j l' m hj => ?_, fun k' l' hk' => ?_⟩
      · have hl := h.mapped j l' m hj
        have hne : key j ≠ k := by
          rintro rfl
          cases hk.symm.trans hl
          exact Finset.notMem_empty j (Finset.card_eq_zero.mp hc ▸ (h.users j l).mpr ⟨m, hj⟩)
        simp only [Function.update_of_ne hne]
        exact hl
      · by_cases he : k' = k
        · subst he
          simp only [Function.update_self, reduceCtorEq] at hk'
        · simp only [Function.update_of_ne he] at hk'
          exact h.objects k' l' hk'
    · simp only [hc, if_false]
      exact h

end Inv

end AccessLocks

end FsIndex

end Freighter
