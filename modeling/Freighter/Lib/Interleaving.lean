import Freighter.Lib.Run
import Freighter.Lib.Transaction
import Mathlib.Order.GameAdd

/-!
# Two transactions side by side

A transaction is a program of calls to a database that another transaction is using. A call sees
the database as it was when the call began; it answers, fails, or waits for the other transaction.

* `Prog`, and what a program does alone (`Prog.run`);
* `Database`, `State`, `step`: every interleaving of two programs. When both wait for each other one
  of them is aborted.
* `Wp`, `Holds`: what holds of a program whatever the other transaction does within its rely, with
  the rules **`Holds.call`**, **`Holds.bind`**, **`Holds.each`**.
* **`bothCommit_initial`**: if both programs hold, and not both may wait, then neither fails, and
  every run ends (`wellFounded_step`) where both have committed.
-/

/-- A program of calls `q : Q`, each with an answer in `A q`. -/
inductive Prog (Q : Type) (A : Q → Type) (α : Type) where
  | done (a : α)
  | call (q : Q) (k : A q → Prog Q A α)

namespace Prog

variable {Q : Type} {A : Q → Type} {σ ε α β : Type}

def andThen : Prog Q A α → (α → Prog Q A β) → Prog Q A β
  | done a, f => f a
  | call q k, f => call q fun b => (k b).andThen f

instance : Monad (Prog Q A) where
  pure := done
  bind := andThen

/-- A single call. -/
def ask (q : Q) : Prog Q A (A q) := call q done

/-- A program for each element of a list. -/
def each (f : α → Prog Q A Unit) : List α → Prog Q A Unit
  | [] => done ()
  | a :: l => do
    f a
    each f l

/-- The program alone, with the calls as steps of a transaction. -/
def run (f : (q : Q) → Tx σ ε (A q)) : Prog Q A α → Tx σ ε α
  | done a => Tx.answer a
  | call q k => f q >>= fun b => (k b).run f

variable (f : (q : Q) → Tx σ ε (A q))

theorem run_ask (q : Q) : (ask q).run f = f q := by
  funext s
  change Tx.andThen (f q) Tx.answer s = f q s
  unfold Tx.andThen Tx.answer
  cases f q s with
  | mk r t => cases r <;> rfl

theorem run_bind (p : Prog Q A α) (g : α → Prog Q A β) :
    (p >>= g).run f = p.run f >>= fun a => (g a).run f := by
  induction p with
  | done a => rfl
  | call q k ih =>
    change (f q >>= fun b => (k b >>= g).run f) = (f q >>= fun b => (k b).run f) >>= _
    funext s
    cases h : f q s with
    | mk r t =>
      cases r with
      | error e => rw [Tx.bind_of_error h, Tx.bind_of_error (Tx.bind_of_error h)]
      | ok b =>
        rw [Tx.bind_of_ok h, ih]
        change Tx.andThen _ _ t = Tx.andThen (Tx.andThen (f q) _) _ s
        simp only [Tx.andThen, h]

theorem run_each (g : α → Prog Q A Unit) (l : List α) :
    (each g l).run f = Tx.each (fun a => (g a).run f) l := by
  induction l with
  | nil => rfl
  | cons a l ih =>
    change (g a >>= fun _ => each g l).run f = _
    rw [run_bind, ih]
    rfl

end Prog

namespace Interleaving

/-- What becomes of a call: it has to wait, it fails, or it answers and changes the database. -/
inductive Attempt (σ ε β : Type) where
  | waits
  | fails (e : ε)
  | answers (b : β) (s : σ)

/-- A database for two transactions. `attempt i t q s` is the call `q` of transaction `i` in the
state `s`, when the call began in the state `t`. -/
structure Database (σ ε Q : Type) (A : Q → Type) where
  attempt : Bool → σ → (q : Q) → σ → Attempt σ ε (A q)
  commit : Bool → σ → σ
  abort : Bool → σ → σ

variable {σ ε Q : Type} {A : Q → Type} {α β : Type}

/-! ## The machine -/

/-- Where a transaction is: what is left to do, or a call that waits, with the state in which it
began. The error of a transaction that was aborted in a deadlock is `none`. -/
inductive Pc (σ ε Q : Type) (A : Q → Type) where
  | ready (p : Prog Q A Unit)
  | waiting (began : σ) (q : Q) (k : A q → Prog Q A Unit)
  | committed
  | failed (e : Option ε)

structure State (σ ε Q : Type) (A : Q → Type) where
  shared : σ
  pc : Bool → Pc σ ε Q A

inductive Label where
  | run (i : Bool)
  | deadlock (i : Bool)

variable (M : Database σ ε Q A)

def initial (s : σ) (p : Bool → Prog Q A Unit) : State σ ε Q A := ⟨s, fun i => .ready (p i)⟩

/-- What a call does that need not wait. -/
def settle (s : State σ ε Q A) (i : Bool) {q : Q} (k : A q → Prog Q A Unit) :
    Attempt σ ε (A q) → Option (State σ ε Q A)
  | .waits => none
  | .fails e => some ⟨M.abort i s.shared, Function.update s.pc i (.failed (some e))⟩
  | .answers b t => some ⟨t, Function.update s.pc i (.ready (k b))⟩

/-- The next call of a transaction, or its commit. -/
def runStep (s : State σ ε Q A) (i : Bool) : Option (State σ ε Q A) :=
  match s.pc i with
  | .ready (.done ()) => some ⟨M.commit i s.shared, Function.update s.pc i .committed⟩
  | .ready (.call q k) =>
    match settle M s i k (M.attempt i s.shared q s.shared) with
    | some s' => some s'
    | none => some ⟨s.shared, Function.update s.pc i (.waiting s.shared q k)⟩
  | .waiting began q k => settle M s i k (M.attempt i began q s.shared)
  | .committed => none
  | .failed _ => none

/-- The call of the transaction has to wait. -/
def blocked (s : State σ ε Q A) (i : Bool) : Bool :=
  match s.pc i with
  | .waiting began q _ =>
    match M.attempt i began q s.shared with
    | .waits => true
    | _ => false
  | _ => false

def step (s : State σ ε Q A) : Label → Option (State σ ε Q A)
  | .run i => runStep M s i
  | .deadlock i =>
    if blocked M s i && blocked M s !i then
      some ⟨M.abort i s.shared, Function.update s.pc i (.failed none)⟩
    else none

/-- Whatever the order of the calls, neither transaction fails, and every run comes to an end where
both have committed. -/
structure BothCommit (s : State σ ε Q A) : Prop where
  no_failure : ∀ labels s', Run.exec (step M) s labels = some s' → ∀ i e, s'.pc i ≠ .failed e
  committed : ∀ labels s', Run.exec (step M) s labels = some s' →
    (∀ a, step M s' a = none) → ∀ i, s'.pc i = .committed
  ends : ¬ ∃ r : ℕ → State σ ε Q A, r 0 = s ∧ ∀ n, ∃ a, step M (r n) a = some (r (n + 1))

/-! ## Rely and guarantee -/

/-- What the proof of a pair of transactions rests on: an invariant, what the other transaction may
do to the state (`rely`), which transaction may have to wait, and that a transaction has ended. -/
structure Contract (σ : Type) where
  inv : σ → Prop
  rely : Bool → σ → σ → Prop
  may : Bool → Prop
  ended : Bool → σ → Prop
  refl : ∀ i s, rely i s s
  trans : ∀ i s t u, rely i s t → rely i t u → rely i s u
  ended_rely : ∀ i s t, rely i s t → ended i s → ended i t

variable (C : Contract σ)

/-- A call that does not fail, waits for a transaction that runs, if it may wait, and answers as
`Φ` says. -/
def Fine (i : Bool) (q : Q) (t u : σ) (Φ : A q → σ → Prop) : Prop :=
  match M.attempt i t q u with
  | .waits => C.may i ∧ ¬ C.ended (!i) u
  | .fails _ => False
  | .answers b v => C.inv v ∧ C.rely (!i) u v ∧ Φ b v

/-- The calls of the program are fine, and `Φ` holds when they are done, whatever the other
transaction does in between. -/
def Wp (i : Bool) (Φ : α → σ → Prop) : Prog Q A α → σ → Prop
  | .done a, s => ∀ t, C.rely i s t → C.inv t → Φ a t
  | .call q k, s => ∀ t u, C.rely i s t → C.inv t → C.rely i t u → C.inv u →
      Fine M C i q t u fun b v => Wp i Φ (k b) v

/-- The program takes `P` to `Φ`. -/
def Holds (i : Bool) (P : σ → Prop) (p : Prog Q A α) (Φ : α → σ → Prop) : Prop :=
  ∀ s, C.inv s → P s → Wp M C i Φ p s

/-- What the other transaction does leaves `P` as it is. -/
def Stable (i : Bool) (P : σ → Prop) : Prop := ∀ s t, C.rely i s t → C.inv t → P s → P t

variable {M C} {i : Bool} {P P' : σ → Prop} {Φ : α → σ → Prop} {Ψ : β → σ → Prop}

theorem Fine.mono {q : Q} {t u : σ} {Φ Φ' : A q → σ → Prop} (h : Fine M C i q t u Φ)
    (hΦ : ∀ b v, C.inv v → Φ b v → Φ' b v) : Fine M C i q t u Φ' := by
  unfold Fine at h ⊢
  cases ha : M.attempt i t q u with
  | waits => rwa [ha] at h
  | fails e => rwa [ha] at h
  | answers b v =>
    rw [ha] at h
    exact ⟨h.1, h.2.1, hΦ b v h.1 h.2.2⟩

theorem Fine.of_answers {q : Q} {t u v : σ} {Φ : A q → σ → Prop} {b : A q}
    (h : M.attempt i t q u = .answers b v) (hv : C.inv v ∧ C.rely (!i) u v) (hΦ : Φ b v) :
    Fine M C i q t u Φ := by
  unfold Fine
  rw [h]
  exact ⟨hv.1, hv.2, hΦ⟩

theorem Fine.of_waits {q : Q} {t u : σ} {Φ : A q → σ → Prop} (h : M.attempt i t q u = .waits)
    (hmay : C.may i) (hended : ¬ C.ended (!i) u) : Fine M C i q t u Φ := by
  unfold Fine
  rw [h]
  exact ⟨hmay, hended⟩

theorem Wp.mono {Φ' : α → σ → Prop} {p : Prog Q A α} {s : σ} (h : Wp M C i Φ p s)
    (hΦ : ∀ a t, C.inv t → Φ a t → Φ' a t) : Wp M C i Φ' p s := by
  induction p generalizing s with
  | done a => exact fun t hst ht => hΦ a t ht (h t hst ht)
  | call q k ih => exact fun t u hst ht htu hu => (h t u hst ht htu hu).mono fun b v _ => ih b

theorem Wp.rely {p : Prog Q A α} {s t : σ} (h : Wp M C i Φ p s) (hst : C.rely i s t) :
    Wp M C i Φ p t := by
  cases p with
  | done a => exact fun u htu => h u (C.trans i s t u hst htu)
  | call q k => exact fun u v htu => h u v (C.trans i s t u hst htu)

theorem Wp.bind {p : Prog Q A α} {f : α → Prog Q A β} {s : σ} (hs : C.inv s)
    (h : Wp M C i Φ p s) (hf : ∀ a t, C.inv t → Φ a t → Wp M C i Ψ (f a) t) :
    Wp M C i Ψ (p >>= f) s := by
  induction p generalizing s with
  | done a => exact hf a s hs (h s (C.refl i s) hs)
  | call q k ih =>
    intro t u hst ht htu hu
    exact (h t u hst ht htu hu).mono fun b v hv hk => ih b hv hk

namespace Holds

theorem pre {p : Prog Q A α} (h : Holds M C i P p Φ) (hP : ∀ s, C.inv s → P' s → P s) :
    Holds M C i P' p Φ := fun s hs hp => h s hs (hP s hs hp)

theorem post {Φ' : α → σ → Prop} {p : Prog Q A α} (h : Holds M C i P p Φ)
    (hΦ : ∀ a s, C.inv s → Φ a s → Φ' a s) : Holds M C i P p Φ' :=
  fun s hs hp => (h s hs hp).mono hΦ

theorem done {a : α} (hP : Stable C i P) (h : ∀ s, C.inv s → P s → Φ a s) :
    Holds M C i P (.done a) Φ :=
  fun s _ hp t hst ht => h t ht (hP s t hst ht hp)

/-- **The rule for a call**, from the state in which it begins and the state in which it answers. -/
theorem call {q : Q} {Φ : A q → σ → Prop} (hP : Stable C i P) (hΦ : ∀ b, Stable C i (Φ b))
    (h : ∀ t u, C.inv t → C.inv u → C.rely i t u → P t → P u → Fine M C i q t u Φ) :
    Holds M C i P (Prog.ask q) Φ := by
  intro s _ hp t u hst ht htu hu
  have hpt := hP s t hst ht hp
  exact (h t u ht hu htu hpt (hP t u htu hu hpt)).mono fun b v _ hb w hvw hw =>
    hΦ b v w hvw hw hb

/-- **The rule for a sequence.** -/
theorem bind {p : Prog Q A α} {f : α → Prog Q A β} (hp : Holds M C i P p Φ)
    (hf : ∀ a, Holds M C i (Φ a) (f a) Ψ) : Holds M C i P (p >>= f) Ψ :=
  fun s hs h => (hp s hs h).bind hs fun a t ht => hf a t ht

/-- **The rule for a loop**, as long as `I` holds of what is left to do and the state. -/
theorem each {f : α → Prog Q A Unit} {I : List α → σ → Prop} (hI : Stable C i (I []))
    (hf : ∀ a l, Holds M C i (I (a :: l)) (f a) fun _ => I l) (l : List α) :
    Holds M C i (I l) (Prog.each f l) fun _ => I [] := by
  induction l with
  | nil => exact done hI fun _ _ => id
  | cons a l ih => exact (hf a l).bind fun _ => ih

end Holds

/-! ## Runs of two programs -/

variable (M C) in
/-- What is known of a transaction, by where it is; `Ψ` holds when it is about to commit. -/
def SoundPc (Ψ : Bool → σ → Prop) (i : Bool) : Pc σ ε Q A → σ → Prop
  | .ready p, s => Wp M C i (fun _ => Ψ i) p s
  | .waiting began q k, s => C.inv began ∧ C.rely i began s ∧ C.may i ∧
      ∀ u, C.rely i began u → C.inv u →
        Fine M C i q began u fun b v => Wp M C i (fun _ => Ψ i) (k b) v
  | .committed, s => C.ended i s
  | .failed _, _ => False

variable (M C) in
structure Sound (Ψ : Bool → σ → Prop) (s : State σ ε Q A) : Prop where
  inv : C.inv s.shared
  pc : ∀ i, SoundPc M C Ψ i (s.pc i) s.shared

variable {Ψ : Bool → σ → Prop} {s s' : State σ ε Q A}

theorem SoundPc.rely {pc : Pc σ ε Q A} {t u : σ} (h : SoundPc M C Ψ i pc t) (htu : C.rely i t u) :
    SoundPc M C Ψ i pc u := by
  cases pc with
  | ready p => exact Wp.rely h htu
  | waiting began q k => exact ⟨h.1, C.trans i began t u h.2.1 htu, h.2.2⟩
  | committed => exact C.ended_rely i t u htu h
  | failed e => exact h

/-- A step of one transaction, within the rely of the other. -/
theorem Sound.update (h : Sound M C Ψ s) {t : σ} {pc : Pc σ ε Q A} (ht : C.inv t)
    (hrely : C.rely (!i) s.shared t) (hpc : SoundPc M C Ψ i pc t) :
    Sound M C Ψ ⟨t, Function.update s.pc i pc⟩ := by
  refine ⟨ht, fun j => ?_⟩
  by_cases hj : j = i
  · rw [hj]
    simpa using hpc
  · have hother : j = !i := Bool.eq_not.mpr hj
    rw [← hother] at hrely
    simpa [Function.update_of_ne hj] using (h.pc j).rely hrely

theorem Sound.settle (h : Sound M C Ψ s) {q : Q} {k : A q → Prog Q A Unit} {began : σ}
    (hfine : Fine M C i q began s.shared fun b v => Wp M C i (fun _ => Ψ i) (k b) v)
    (hs : settle M s i k (M.attempt i began q s.shared) = some s') : Sound M C Ψ s' := by
  unfold Fine at hfine
  cases ha : M.attempt i began q s.shared with
  | waits =>
    rw [ha] at hs
    cases hs
  | fails e =>
    rw [ha] at hfine
    exact hfine.elim
  | answers b v =>
    rw [ha] at hs hfine
    cases hs
    exact h.update hfine.1 hfine.2.1 hfine.2.2

/-- A transaction whose call has to wait. -/
theorem Sound.may_of_blocked (h : Sound M C Ψ s) (hb : blocked M s i = true) :
    C.may i ∧ ¬ C.ended (!i) s.shared := by
  have hpc := h.pc i
  unfold blocked at hb
  split at hb
  · rename_i began q k hi
    rw [hi] at hpc
    obtain ⟨-, hrely, -, hfine⟩ := hpc
    have hnow := hfine s.shared hrely h.inv
    unfold Fine at hnow
    split at hb
    · rename_i ha
      rwa [ha] at hnow
    · cases hb
  · cases hb

/-- When no step is left, no transaction is about to make a call. -/
theorem not_ready_of_stuck (hstuck : ∀ a, Interleaving.step M s a = none) (i : Bool)
    (p : Prog Q A Unit) : s.pc i ≠ .ready p := by
  intro hi
  have hnone := hstuck (.run i)
  simp only [Interleaving.step, runStep, hi] at hnone
  cases p with
  | done a => cases hnone
  | call q k =>
    simp only at hnone
    split at hnone <;> cases hnone

/-- And those that wait are blocked. -/
theorem blocked_of_stuck (hstuck : ∀ a, Interleaving.step M s a = none) {i : Bool} {began : σ}
    {q : Q} {k : A q → Prog Q A Unit} (hi : s.pc i = .waiting began q k) :
    blocked M s i = true := by
  have hnone := hstuck (.run i)
  simp only [Interleaving.step, runStep, hi] at hnone
  unfold blocked
  rw [hi]
  cases ha : M.attempt i began q s.shared with
  | waits => simp only [ha]
  | fails e =>
    rw [ha] at hnone
    cases hnone
  | answers b v =>
    rw [ha] at hnone
    cases hnone

section Commit

variable (hmay : ∀ i, C.may i → ¬ C.may !i)
  (hcommit : ∀ i t, C.inv t → Ψ i t →
    C.inv (M.commit i t) ∧ C.rely (!i) t (M.commit i t) ∧ C.ended i (M.commit i t))

include hmay hcommit

/-- **Every step keeps both transactions sound.** -/
theorem Sound.step (h : Sound M C Ψ s) {a : Label} (hs : step M s a = some s') :
    Sound M C Ψ s' := by
  cases a with
  | run i =>
    have hpc := h.pc i
    simp only [Interleaving.step, runStep] at hs
    split at hs
    · rename_i hi
      cases hs
      rw [hi] at hpc
      have hΨ := hpc s.shared (C.refl i _) h.inv
      obtain ⟨hinv, hrely, hended⟩ := hcommit i s.shared h.inv hΨ
      exact h.update hinv hrely hended
    · rename_i q k hi
      rw [hi] at hpc
      have hfine := fun u => hpc s.shared u (C.refl i _) h.inv
      split at hs
      · rename_i t hsettle
        cases hs
        exact h.settle (hfine s.shared (C.refl i _) h.inv) hsettle
      · rename_i hsettle
        cases hs
        refine h.update h.inv (C.refl _ _) ⟨h.inv, C.refl i _, ?_, hfine⟩
        have hnow := hfine s.shared (C.refl i _) h.inv
        unfold Fine at hnow
        cases ha : M.attempt i s.shared q s.shared with
        | waits =>
          rw [ha] at hnow
          exact hnow.1
        | fails e =>
          rw [ha] at hsettle
          cases hsettle
        | answers b v =>
          rw [ha] at hsettle
          cases hsettle
    · rename_i began q k hi
      rw [hi] at hpc
      exact h.settle (hpc.2.2.2 s.shared hpc.2.1 h.inv) hs
    · cases hs
    · cases hs
  | deadlock i =>
    simp only [Interleaving.step] at hs
    split_ifs at hs with hb
    rw [Bool.and_eq_true] at hb
    exact absurd (h.may_of_blocked hb.2).1 (hmay i (h.may_of_blocked hb.1).1)

omit hcommit in
/-- Sound transactions that cannot go on have committed. -/
theorem Sound.committed (h : Sound M C Ψ s) (hstuck : ∀ a, Interleaving.step M s a = none)
    (i : Bool) : s.pc i = .committed := by
  cases hi : s.pc i with
  | ready p => exact absurd hi (not_ready_of_stuck hstuck i p)
  | committed => rfl
  | failed e =>
    have hpc := h.pc i
    rw [hi] at hpc
    exact hpc.elim
  | waiting began q k =>
    have hwait := h.may_of_blocked (blocked_of_stuck hstuck hi)
    have hother := h.pc !i
    cases hj : s.pc !i with
    | ready p => exact absurd hj (not_ready_of_stuck hstuck _ p)
    | committed =>
      rw [hj] at hother
      exact absurd hother hwait.2
    | failed e =>
      rw [hj] at hother
      exact hother.elim
    | waiting began' q' k' =>
      exact absurd (h.may_of_blocked (blocked_of_stuck hstuck hj)).1 (hmay i hwait.1)

end Commit

/-! ## Every run ends -/

/-- Where a transaction can get to by one step. -/
inductive After : Pc σ ε Q A → Pc σ ε Q A → Prop where
  | answered {q : Q} {k : A q → Prog Q A Unit} (b : A q) :
      After (.ready (k b)) (.ready (.call q k))
  | waits (t : σ) {q : Q} {k : A q → Prog Q A Unit} :
      After (.waiting t q k) (.ready (.call q k))
  | resumed {t : σ} {q : Q} {k : A q → Prog Q A Unit} (b : A q) :
      After (.ready (k b)) (.waiting t q k)
  | committed {a : Unit} : After .committed (.ready (.done a))
  | failed (e : Option ε) {t : σ} {q : Q} {k : A q → Prog Q A Unit} {pc : Pc σ ε Q A}
      (h : pc = .ready (.call q k) ∨ pc = .waiting t q k) : After (.failed e) pc

theorem acc_failed (e : Option ε) : Acc After (.failed e : Pc σ ε Q A) :=
  ⟨_, fun pc h => by rcases h with _ | _ | _ | _ | ⟨_, h | h⟩ <;> cases h⟩

theorem acc_committed : Acc After (.committed : Pc σ ε Q A) :=
  ⟨_, fun pc h => by rcases h with _ | _ | _ | _ | ⟨_, h | h⟩ <;> cases h⟩

theorem acc_waiting {t : σ} {q : Q} {k : A q → Prog Q A Unit}
    (ih : ∀ b, Acc After (.ready (k b) : Pc σ ε Q A)) :
    Acc After (.waiting t q k : Pc σ ε Q A) := by
  refine ⟨_, fun pc h => ?_⟩
  cases h with
  | resumed b => exact ih b
  | failed e h => exact acc_failed e

theorem acc_ready (p : Prog Q A Unit) : Acc After (.ready p : Pc σ ε Q A) := by
  induction p with
  | done a =>
    refine ⟨_, fun pc h => ?_⟩
    cases h with
    | committed => exact acc_committed
    | failed e h => exact acc_failed e
  | call q k ih =>
    refine ⟨_, fun pc h => ?_⟩
    cases h with
    | answered b => exact ih b
    | waits t => exact acc_waiting ih
    | failed e h => exact acc_failed e

theorem wellFounded_after : WellFounded (After : Pc σ ε Q A → Pc σ ε Q A → Prop) := by
  refine ⟨fun pc => ?_⟩
  cases pc with
  | ready p => exact acc_ready p
  | waiting t q k => exact acc_waiting fun b => acc_ready (k b)
  | committed => exact acc_committed
  | failed e => exact acc_failed e

theorem after_settle {q : Q} {k : A q → Prog Q A Unit} (began : σ)
    (hi : s.pc i = .ready (.call q k) ∨ s.pc i = .waiting began q k) {r : Attempt σ ε (A q)}
    (hs : settle M s i k r = some s') :
    After (s'.pc i) (s.pc i) ∧ s'.pc (!i) = s.pc !i := by
  cases r with
  | waits => cases hs
  | fails e =>
    cases hs
    simp only [Function.update_self]
    exact ⟨.failed _ hi, Function.update_of_ne (by simp) _ _⟩
  | answers b t =>
    cases hs
    simp only [Function.update_self]
    refine ⟨?_, Function.update_of_ne (by simp) _ _⟩
    rcases hi with hi | hi <;> rw [hi]
    · exact .answered b
    · exact .resumed b

/-- A step takes one transaction on. -/
theorem after_step {a : Label} (hs : step M s a = some s') :
    ∃ i, After (s'.pc i) (s.pc i) ∧ s'.pc (!i) = s.pc !i := by
  cases a with
  | run i =>
    refine ⟨i, ?_⟩
    simp only [step, runStep] at hs
    split at hs
    · rename_i hi
      cases hs
      simp only [Function.update_self]
      rw [hi]
      exact ⟨.committed, Function.update_of_ne (by simp) _ _⟩
    · rename_i q k hi
      split at hs
      · rename_i t hsettle
        cases hs
        exact after_settle s.shared (Or.inl hi) hsettle
      · cases hs
        simp only [Function.update_self]
        rw [hi]
        exact ⟨.waits s.shared, Function.update_of_ne (by simp) _ _⟩
    · rename_i began q k hi
      exact after_settle began (Or.inr hi) hs
    · cases hs
    · cases hs
  | deadlock i =>
    refine ⟨i, ?_⟩
    simp only [step] at hs
    split_ifs at hs with hb
    cases hs
    rw [Bool.and_eq_true] at hb
    have hblocked := hb.1
    unfold blocked at hblocked
    split at hblocked
    · rename_i began q k hi
      simp only [Function.update_self]
      exact ⟨.failed none (Or.inr hi), Function.update_of_ne (by simp) _ _⟩
    · cases hblocked

variable (M) in
/-- **No run goes on for ever.** -/
theorem wellFounded_step :
    WellFounded fun s' s : State σ ε Q A => ∃ a, step M s a = some s' := by
  have hafter : WellFounded (After : Pc σ ε Q A → Pc σ ε Q A → Prop) := wellFounded_after
  refine Subrelation.wf (fun {s' s} hstep => ?_)
    (InvImage.wf (fun s : State σ ε Q A => (s.pc true, s.pc false)) (hafter.prod_gameAdd hafter))
  obtain ⟨a, hs⟩ := hstep
  obtain ⟨i, hnext, hsame⟩ := after_step hs
  cases i with
  | true =>
    have hfalse : s'.pc false = s.pc false := hsame
    simp only [InvImage, hfalse]
    exact .fst hnext
  | false =>
    have htrue : s'.pc true = s.pc true := hsame
    simp only [InvImage, htrue]
    exact .snd hnext

/-- **Two programs that hold both commit.** -/
theorem bothCommit_initial (hmay : ∀ i, C.may i → ¬ C.may !i)
    (hcommit : ∀ i t, C.inv t → Ψ i t →
      C.inv (M.commit i t) ∧ C.rely (!i) t (M.commit i t) ∧ C.ended i (M.commit i t))
    {t : σ} {p : Bool → Prog Q A Unit} (ht : C.inv t)
    (hp : ∀ i, Wp M C i (fun _ => Ψ i) (p i) t) : BothCommit M (initial t p) := by
  have hsound : ∀ labels s, Run.exec (step M) (initial t p) labels = some s → Sound M C Ψ s :=
    fun labels s h => Run.exec_invariant (fun _ _ _ hI => hI.step hmay hcommit) h ⟨ht, hp⟩
  refine ⟨fun labels s h i e hi => ?_, fun labels s h hstuck i => ?_, ?_⟩
  · have hpc := (hsound labels s h).pc i
    rw [hi] at hpc
    exact hpc
  · exact (hsound labels s h).committed hmay hstuck i
  · rintro ⟨r, -, hr⟩
    exact (wellFounded_iff_isEmpty_descending_chain.mp (wellFounded_step M)).false ⟨r, hr⟩

end Interleaving
