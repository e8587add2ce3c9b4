import Mathlib.Logic.Basic

/-!
# Steps of a transaction

A step answers or fails, and leaves a state either way; what follows a failed step does not run.

* `Tx`, `each`; **`bind_eq_ok`**: a sequence that answers, one step at a time;
* `each_rel`: what a loop that answers does to a state; `each_ok`: a loop whose steps answer;
* `onFst`, `onSnd`: steps on one part of a state; `Stops`: a sequence that fails before it looks at
  the second part.
* `Keeps`, `KeepsOnError`: steps that leave the second part.
* `Asks`: a sequence that does one step to the first part, and answers only if that does.
* `Sim`: two steps that answer alike from related states; **`Sim.bind`**: sequences of such steps.
-/

/-- A step over states `σ`, with errors `ε` and answers `α`. -/
def Tx (σ ε α : Type) : Type := σ → Except ε α × σ

namespace Tx

variable {σ ε α β : Type}

/-- Answer `a`, and leave the state. -/
def answer (a : α) : Tx σ ε α := fun s => (.ok a, s)

/-- The first step, and then what `f` makes of its answer. -/
def andThen (x : Tx σ ε α) (f : α → Tx σ ε β) : Tx σ ε β := fun s =>
  match x s with
  | (.ok a, s) => f a s
  | (.error e, s) => (.error e, s)

instance : Monad (Tx σ ε) where
  pure := answer
  bind := andThen

/-- A step for each element of a list. -/
def each (f : α → Tx σ ε Unit) : List α → Tx σ ε Unit
  | [] => answer ()
  | a :: l => do
    f a
    each f l

variable {x : Tx σ ε α} {f : α → Tx σ ε β} {s t u : σ} {a : α} {b : β} {e : ε}

theorem bind_of_ok (h : x s = (.ok a, t)) : (x >>= f) s = f a t := by
  change andThen x f s = _
  simp only [andThen, h]

theorem bind_of_error (h : x s = (.error e, t)) : (x >>= f) s = (.error e, t) := by
  change andThen x f s = _
  simp only [andThen, h]

theorem bind_congr {y : Tx σ ε α} (h : y s = x s) : (y >>= f) s = (x >>= f) s := by
  change andThen y f s = andThen x f s
  rw [andThen, andThen, h]

/-- **A sequence that answers.** -/
theorem bind_eq_ok : (x >>= f) s = (.ok b, u) ↔
    ∃ a t, x s = (.ok a, t) ∧ f a t = (.ok b, u) := by
  constructor
  · intro h
    cases hx : x s with
    | mk r t =>
      cases r with
      | error e =>
        rw [bind_of_error hx] at h
        cases h
      | ok a =>
        rw [bind_of_ok hx] at h
        exact ⟨a, t, rfl, h⟩
  · rintro ⟨a, t, hx, hf⟩
    rw [bind_of_ok hx, hf]

/-- What a sequence answers. -/
theorem fst_bind_eq_ok : ((x >>= f) s).1 = .ok b ↔
    ∃ a, (x s).1 = .ok a ∧ (f a (x s).2).1 = .ok b := by
  rcases hx : x s with ⟨e | a, t⟩
  · rw [bind_of_error hx]
    simp
  · rw [bind_of_ok hx]
    simp

theorem fst_map_eq_ok {g : α → β} :
    ((do return g (← x) : Tx σ ε β) s).1 = .ok b ↔ ∃ a, (x s).1 = .ok a ∧ g a = b := by
  rw [fst_bind_eq_ok]
  exact exists_congr fun a => and_congr_right fun _ => ⟨Except.ok.inj, congrArg _⟩

theorem answer_eq_ok {a' : α} :
    (answer a : Tx σ ε α) s = (.ok a', t) ↔ a = a' ∧ s = t := by
  simp [answer]

/-! ## Loops -/

section Each

variable {g : α → Tx σ ε Unit} {l : List α}

theorem each_cons_eq_ok : each g (a :: l) s = (.ok (), u) ↔
    ∃ t, g a s = (.ok (), t) ∧ each g l t = (.ok (), u) := by
  change (g a >>= fun _ => each g l) s = _ ↔ _
  rw [bind_eq_ok]
  exact ⟨fun ⟨_, t, h⟩ => ⟨t, h⟩, fun ⟨t, h⟩ => ⟨(), t, h⟩⟩

/-- **What a loop that answers does**: what each of its steps does, when that composes. -/
theorem each_rel {R : σ → σ → Prop} (hrefl : ∀ s, R s s)
    (htrans : ∀ {s t u}, R s t → R t u → R s u)
    (hstep : ∀ a s t, g a s = (.ok (), t) → R s t) (h : each g l s = (.ok (), u)) : R s u := by
  induction l generalizing s with
  | nil =>
    obtain ⟨-, rfl⟩ := answer_eq_ok.mp h
    exact hrefl s
  | cons a l ih =>
    obtain ⟨t, ht, h⟩ := each_cons_eq_ok.mp h
    exact htrans (hstep a s t ht) (ih h)

/-- **A loop whose steps answer**, as long as `I` holds of what is left to do and the state. -/
theorem each_ok {I : List α → σ → Prop}
    (hstep : ∀ a l s, I (a :: l) s → ∃ t, g a s = (.ok (), t) ∧ I l t) (h : I l s) :
    ∃ u, each g l s = (.ok (), u) := by
  induction l generalizing s with
  | nil => exact ⟨s, rfl⟩
  | cons a l ih =>
    obtain ⟨t, ht, hI⟩ := hstep a l s h
    obtain ⟨u, hu⟩ := ih hI
    exact ⟨u, each_cons_eq_ok.mpr ⟨t, ht, hu⟩⟩

end Each

/-! ## Steps on a part of the state -/

section Parts

variable {τ ε' : Type}

/-- Fail with `e`, and leave the state. -/
def fail (e : ε) : Tx σ ε α := fun s => (.error e, s)

/-- A result that is there already. -/
def lift (r : Except ε α) : Tx σ ε α := fun s => (r, s)

/-- The result of a step, as an answer. -/
def attempt (x : Tx σ ε α) : Tx σ ε' (Except ε α) := fun s => (.ok (x s).1, (x s).2)

theorem lift_ok_bind (a : α) (f : α → Tx σ ε β) : (lift (.ok a) >>= f) = f a := rfl

theorem lift_bind_apply (r : Except ε α) (f : α → Tx σ ε β) (s : σ) :
    (lift r >>= f) s =
      match r with
      | .ok a => f a s
      | .error e => (.error e, s) := by
  cases r <;> rfl

theorem attempt_bind_apply (x : Tx σ ε α) (f : Except ε α → Tx σ ε' β) (s : σ) :
    (x.attempt >>= f) s = f (x s).1 (x s).2 := rfl

/-- The same step, with its error in another type. -/
def mapError (f : ε → ε') (x : Tx σ ε α) : Tx σ ε' α := fun s =>
  match x s with
  | (.ok a, s) => (.ok a, s)
  | (.error e, s) => (.error (f e), s)

theorem mapError_ok_iff {r : Except ε α} {f : ε → ε'} : r.mapError f = .ok a ↔ r = .ok a := by
  cases r with
  | error e => exact iff_of_false nofun nofun
  | ok a => constructor <;> intro h <;> cases h <;> rfl

theorem mapError_apply (f : ε → ε') (x : Tx σ ε α) (s : σ) :
    x.mapError f s = ((x s).1.mapError f, (x s).2) := by
  unfold mapError
  cases x s with
  | mk r t => cases r <;> rfl

/-- A step on the first part of the state. -/
def onFst (x : Tx σ ε α) : Tx (σ × τ) ε α := fun s => ((x s.1).1, (x s.1).2, s.2)

/-- A step on the second part of the state. -/
def onSnd (x : Tx τ ε α) : Tx (σ × τ) ε α := fun s => ((x s.2).1, s.1, (x s.2).2)

theorem onFst_mapError (f : ε → ε') (x : Tx σ ε α) (s : σ) (t : τ) :
    (x.mapError f).onFst (s, t) = ((x s).1.mapError f, (x s).2, t) := by
  simp only [onFst, mapError_apply]

theorem onSnd_mapError (f : ε → ε') (x : Tx τ ε α) (s : σ) (t : τ) :
    (x.mapError f).onSnd (s, t) = ((x t).1.mapError f, s, (x t).2) := by
  simp only [onSnd, mapError_apply]

theorem lift_eq_ok {r : Except ε α} :
    (lift r : Tx σ ε α) s = (.ok a, t) ↔ r = .ok a ∧ s = t := Prod.ext_iff

theorem onSnd_eq_ok {x : Tx τ ε α} {s t : σ × τ} :
    x.onSnd s = (.ok a, t) ↔ x s.2 = (.ok a, t.2) ∧ t.1 = s.1 := by
  obtain ⟨t₁, t₂⟩ := t
  simp only [onSnd, Prod.ext_iff, and_assoc, and_comm, eq_comm]

theorem onFst_mapError_eq_ok {f : ε → ε'} {x : Tx σ ε α} {s t : σ × τ} :
    (x.mapError f).onFst s = (.ok a, t) ↔ x s.1 = (.ok a, t.1) ∧ t.2 = s.2 := by
  obtain ⟨s₁, s₂⟩ := s
  obtain ⟨t₁, t₂⟩ := t
  rw [onFst_mapError]
  constructor
  · intro h
    rcases hx : x s₁ with ⟨e | a', s'⟩ <;> rw [hx] at h <;> cases h
    exact ⟨rfl, rfl⟩
  · rintro ⟨hx, rfl⟩
    rw [hx]
    rfl

/-- A step that leaves the state when it fails, on the first part. -/
theorem onFst_mapError_error {f : ε → ε'} {x : Tx σ ε α}
    (hx : ∀ s e, (x s).1 = .error e → (x s).2 = s) {s : σ × τ} {e' : ε'}
    (h : ((x.mapError f).onFst s).1 = .error e') : ((x.mapError f).onFst s).2 = s := by
  obtain ⟨s₁, s₂⟩ := s
  rw [onFst_mapError] at h ⊢
  cases hr : (x s₁).1 with
  | error e => rw [hx s₁ e hr]
  | ok b =>
    rw [hr] at h
    cases h

/-- From the first part `s` the step fails, in one way whatever the second part, and leaves that. -/
def Stops (x : Tx (σ × τ) ε α) (s : σ) : Prop := ∃ e s', ∀ t, x (s, t) = (.error e, s', t)

theorem stops_fail (e : ε) (s : σ) : Stops (fail e : Tx (σ × τ) ε α) s := ⟨e, s, fun _ => rfl⟩

/-- **What follows does not run.** -/
theorem Stops.bind {x : Tx (σ × τ) ε α} (h : Stops x s) (f : α → Tx (σ × τ) ε β) :
    Stops (x >>= f) s := by
  obtain ⟨e, s', hx⟩ := h
  exact ⟨e, s', fun t => bind_of_error (hx t)⟩

theorem stops_lift_bind {r : Except ε α} {f : α → Tx (σ × τ) ε β}
    (h : ∀ a, r = .ok a → Stops (f a) s) : Stops (lift r >>= f) s := by
  cases r with
  | error e => exact Stops.bind ⟨e, s, fun _ => rfl⟩ f
  | ok a => exact h a rfl

theorem stops_onFst {x : Tx σ ε α} {f : ε → ε'} (h : ∀ a, (x s).1 ≠ .ok a) :
    Stops (onFst (mapError f x) : Tx (σ × τ) ε' α) s := by
  cases hx : x s with
  | mk r s' =>
    cases r with
    | ok a =>
      rw [hx] at h
      exact absurd rfl (h a)
    | error e =>
      refine ⟨f e, s', fun t => ?_⟩
      simp only [onFst, mapError, hx]

theorem onSnd_bind {τ : Type} (x : Tx τ ε α) (f : α → Tx τ ε β) :
    (onSnd (x >>= f) : Tx (σ × τ) ε β) = onSnd x >>= fun a => onSnd (f a) := by
  funext s
  change ((andThen x f s.2).1, s.1, (andThen x f s.2).2) = andThen (onSnd x) _ s
  simp only [andThen, onSnd]
  cases x s.2 with
  | mk r t => cases r <;> rfl

end Parts

/-! ## Steps that leave a part of the state -/

section Keeps

variable {τ : Type}

/-- The step leaves the second part. -/
def Keeps (x : Tx (σ × τ) ε α) : Prop := ∀ s, (x s).2.2 = s.2

/-- The step leaves the second part when it fails. -/
def KeepsOnError (x : Tx (σ × τ) ε α) : Prop := ∀ s e, (x s).1 = .error e → (x s).2.2 = s.2

theorem keeps_answer (a : α) : Keeps (answer a : Tx (σ × τ) ε α) := fun _ => rfl

theorem keeps_fail (e : ε) : Keeps (fail e : Tx (σ × τ) ε α) := fun _ => rfl

theorem keeps_onFst (x : Tx σ ε α) : Keeps (onFst x : Tx (σ × τ) ε α) := fun _ => rfl

theorem keeps_onSnd {x : Tx τ ε α} (h : ∀ t, (x t).2 = t) : Keeps (onSnd x : Tx (σ × τ) ε α) :=
  fun s => h s.2

theorem keepsOnError_onSnd {x : Tx τ ε α} (h : ∀ t e, (x t).1 = .error e → (x t).2 = t) :
    KeepsOnError (onSnd x : Tx (σ × τ) ε α) := fun s e => h s.2 e

theorem Keeps.onError {x : Tx (σ × τ) ε α} (h : Keeps x) : KeepsOnError x := fun s _ _ => h s

theorem Keeps.bind_onError {x : Tx (σ × τ) ε α} {f : α → Tx (σ × τ) ε β} (h : Keeps x)
    (hf : ∀ a, KeepsOnError (f a)) : KeepsOnError (x >>= f) := by
  intro s e he
  have hs := h s
  cases hx : x s with
  | mk r s' =>
    rw [hx] at hs
    cases r with
    | error e' => rwa [bind_of_error hx]
    | ok a =>
      rw [bind_of_ok hx] at he ⊢
      exact (hf a s' e he).trans hs

theorem Keeps.bind {x : Tx (σ × τ) ε α} {f : α → Tx (σ × τ) ε β} (h : Keeps x)
    (hf : ∀ a, Keeps (f a)) : Keeps (x >>= f) := by
  intro s
  have hs := h s
  cases hx : x s with
  | mk r s' =>
    rw [hx] at hs
    cases r with
    | error e => rwa [bind_of_error hx]
    | ok a =>
      rw [bind_of_ok hx]
      exact (hf a s').trans hs

theorem keeps_lift (r : Except ε α) : Keeps (lift r : Tx (σ × τ) ε α) := fun _ => rfl

end Keeps

/-! ## Steps that ask the first part once -/

section Asks

variable {τ ε' ε'' ω : Type} {y : Option (Tx σ ε' ω)} {p : σ}

/-- What an optional step leaves. -/
def after (p : σ) : Option (Tx σ ε' ω) → σ
  | none => p
  | some y => (y p).2

end Asks

/-! ## Simulation -/

section Simulation

variable {τ : Type} {R : σ → τ → Prop}

/-- From related states the two steps answer alike and leave related states. -/
def Sim (R : σ → τ → Prop) (x : Tx σ ε α) (y : Tx τ ε α) : Prop :=
  ∀ s t, R s t → (x s).1 = (y t).1 ∧ R (x s).2 (y t).2

theorem sim_answer (a : α) : Sim R (answer a : Tx σ ε α) (answer a) := fun _ _ h => ⟨rfl, h⟩

theorem sim_fail (e : ε) : Sim R (fail e : Tx σ ε α) (fail e) := fun _ _ h => ⟨rfl, h⟩

theorem sim_lift (r : Except ε α) : Sim R (lift r) (lift r) := fun _ _ h => ⟨rfl, h⟩

/-- **Sequences of steps that answer alike** answer alike. -/
theorem Sim.bind {x : Tx σ ε α} {y : Tx τ ε α} {f : α → Tx σ ε β} {g : α → Tx τ ε β}
    (h : Sim R x y) (hf : ∀ a, Sim R (f a) (g a)) : Sim R (x >>= f) (y >>= g) := by
  intro s t hst
  obtain ⟨hanswer, hstate⟩ := h s t hst
  cases hx : x s with
  | mk r s' =>
    cases hy : y t with
    | mk r' t' =>
      rw [hx, hy] at hanswer hstate
      cases hanswer
      cases r with
      | error e =>
        rw [bind_of_error hx, bind_of_error hy]
        exact ⟨rfl, hstate⟩
      | ok a =>
        rw [bind_of_ok hx, bind_of_ok hy]
        exact hf a s' t' hstate

theorem sim_lift_bind {r : Except ε α} {f : α → Tx σ ε β} {g : α → Tx τ ε β}
    (hf : ∀ a, r = .ok a → Sim R (f a) (g a)) : Sim R (lift r >>= f) (lift r >>= g) := by
  cases r with
  | error e => exact fun s t h => ⟨rfl, h⟩
  | ok a => exact hf a rfl

theorem Sim.attempt {ε' : Type} {x : Tx σ ε α} {y : Tx τ ε α} (h : Sim R x y) :
    Sim R (x.attempt : Tx σ ε' (Except ε α)) y.attempt :=
  fun s t hst => ⟨congrArg Except.ok (h s t hst).1, (h s t hst).2⟩

theorem Sim.mapError {ε' : Type} {f : ε → ε'} {x : Tx σ ε α} {y : Tx τ ε α} (h : Sim R x y) :
    Sim R (x.mapError f) (y.mapError f) := by
  intro s t hst
  rw [mapError_apply, mapError_apply]
  exact ⟨congrArg (Except.mapError f) (h s t hst).1, (h s t hst).2⟩

/-- Steps that answer alike, beside a part that is the same. -/
theorem Sim.onFst {ρ : Type} {x : Tx σ ε α} {y : Tx τ ε α} (h : Sim R x y) :
    Sim (fun s t => R s.1 t.1 ∧ s.2 = t.2) (onFst x : Tx (σ × ρ) ε α) (onFst y) :=
  fun s t hst => ⟨(h s.1 t.1 hst.1).1, (h s.1 t.1 hst.1).2, hst.2⟩

/-- The same step on the other part. -/
theorem sim_onSnd {ρ : Type} (x : Tx ρ ε α) :
    Sim (fun s t => R s.1 t.1 ∧ s.2 = t.2) (Tx.onSnd x : Tx (σ × ρ) ε α) (Tx.onSnd x) := by
  intro s t h
  change (x s.2).1 = (x t.2).1 ∧ R s.1 t.1 ∧ (x s.2).2 = (x t.2).2
  rw [h.2]
  exact ⟨rfl, h.1, rfl⟩

/-- The same step on a part that both states have. -/
theorem sim_onFst {ρ : Type} (x : Tx ρ ε α) :
    Sim (fun s t => s.1 = t.1 ∧ R s.2 t.2) (onFst x : Tx (ρ × σ) ε α) (onFst x) := by
  intro s t h
  change (x s.1).1 = (x t.1).1 ∧ (x s.1).2 = (x t.1).2 ∧ R s.2 t.2
  rw [h.1]
  exact ⟨rfl, rfl, h.2⟩

/-- Steps that answer alike, on the other part. -/
theorem Sim.onSnd {ρ : Type} {x : Tx σ ε α} {y : Tx τ ε α} (h : Sim R x y) :
    Sim (fun s t => s.1 = t.1 ∧ R s.2 t.2) (onSnd x : Tx (ρ × σ) ε α) (onSnd y) :=
  fun s t hst => ⟨(h s.2 t.2 hst.2).1, hst.1, (h s.2 t.2 hst.2).2⟩

end Simulation

end Tx
