import Mathlib.Logic.Relation
import Mathlib.Data.List.Basic

/-!
# Runs of state machines

* Machines that answer every input, `step : σ → ι → ω × σ`: `final`, `outputs`, the steps of a run
  that meet a condition (`Along`), the invariant rule (**`Along.final`**), the history rule
  (**`final_accepted`**) and the simulation rule (**`outputs_eq_of_sim`**).
* Machines whose steps have guards, `step : σ → ι → Option σ`: `exec`, the invariant rules
  (**`exec_invariant`**, **`exec_invariant_of`**), the rule for what a run does to a state
  (**`exec_rel`**), and the rules for how runs end: **`length_add_le_of_exec`**,
  **`exists_exec_of_progress`**.
-/

namespace Run

/-! ## Machines that answer every input -/

section Mealy

variable {σ ι ω : Type} (step : σ → ι → ω × σ)

/-- The state after the inputs `is`. -/
def final (s : σ) : List ι → σ
  | [] => s
  | i :: is => final (step s i).2 is

/-- The answers to the inputs `is`. -/
def outputs (s : σ) : List ι → List ω
  | [] => []
  | i :: is => (step s i).1 :: outputs (step s i).2 is

/-- Every step of the run meets `P`, a condition on the state before it and its input. -/
def Along (P : σ → ι → Prop) (s : σ) : List ι → Prop
  | [] => True
  | i :: is => P s i ∧ Along P (step s i).2 is

@[simp] theorem final_nil (s : σ) : final step s [] = s := rfl

@[simp] theorem final_cons (s : σ) (i : ι) (is : List ι) :
    final step s (i :: is) = final step (step s i).2 is := rfl

theorem final_append (s : σ) (is js : List ι) :
    final step s (is ++ js) = final step (final step s is) js := by
  induction is generalizing s with
  | nil => rfl
  | cons i is ih => exact ih _

theorem final_concat (s : σ) (is : List ι) (i : ι) :
    final step s (is ++ [i]) = (step (final step s is) i).2 := by
  rw [final_append]; rfl

@[simp] theorem length_outputs (s : σ) (is : List ι) : (outputs step s is).length = is.length := by
  induction is generalizing s with
  | nil => rfl
  | cons i is ih => exact congrArg (· + 1) (ih _)

theorem outputs_concat (s : σ) (is : List ι) (i : ι) :
    outputs step s (is ++ [i]) = outputs step s is ++ [(step (final step s is) i).1] := by
  induction is generalizing s with
  | nil => rfl
  | cons j is ih => exact congrArg _ (ih _)

variable {step} {P : σ → ι → Prop}

theorem along_append {s : σ} {is js : List ι} :
    Along step P s (is ++ js) ↔ Along step P s is ∧ Along step P (final step s is) js := by
  induction is generalizing s with
  | nil => simp [Along]
  | cons i is ih => simp only [List.cons_append, Along, ih, and_assoc, final_cons]

theorem along_iff {s : σ} {is : List ι} :
    Along step P s is ↔ ∀ pre i post, is = pre ++ i :: post → P (final step s pre) i := by
  constructor
  · rintro h pre i post rfl
    exact (along_append.mp h).2.1
  · intro h
    induction is generalizing s with
    | nil => trivial
    | cons i is ih =>
      refine ⟨h [] i is rfl, ih fun pre j post e => ?_⟩
      exact h (i :: pre) j post (by rw [e, List.cons_append])

/-- **The invariant rule**: what every step meeting `P` preserves holds after the run. -/
theorem Along.final {I : σ → Prop} (hI : ∀ s i, I s → P s i → I (step s i).2) {s : σ}
    {is : List ι} (h : Along step P s is) (hs : I s) : I (final step s is) := by
  induction is generalizing s with
  | nil => exact hs
  | cons i is ih => exact ih h.2 (hI s i hs h.1)

/-- The invariant rule for what relates a state to the inputs that led to it. -/
theorem Along.history {I : σ → List ι → Prop}
    (hI : ∀ s is i, I s is → P s i → I (step s i).2 (is ++ [i])) {s : σ} {before is : List ι}
    (h : Along step P s is) (hs : I s before) : I (Run.final step s is) (before ++ is) := by
  induction is generalizing s before with
  | nil => rwa [List.append_nil]
  | cons i is ih =>
    have hrest := ih h.2 (hI s before i hs h.1)
    rwa [List.append_assoc] at hrest

/-- The invariant rule for a run whose steps are not restricted. -/
theorem final_invariant {I : σ → Prop} (hI : ∀ s i, I s → I (step s i).2) {s : σ} (hs : I s)
    (is : List ι) : I (Run.final step s is) := by
  induction is generalizing s with
  | nil => exact hs
  | cons i is ih => exact ih (hI s i hs)

variable (step) in
/-- The inputs of a run whose answers are `ok`. -/
def accepted (ok : ω → Prop) [DecidablePred ok] (s : σ) : List ι → List ι
  | [] => []
  | i :: is =>
    if ok (step s i).1 then i :: accepted ok (step s i).2 is else accepted ok (step s i).2 is

/-- **The history rule**: what relates a state to the inputs that were accepted, when every step
keeps it up. -/
theorem final_accepted {ok : ω → Prop} [DecidablePred ok] {I : σ → List ι → Prop}
    (hok : ∀ s is i, I s is → ok (step s i).1 → I (step s i).2 (is ++ [i]))
    (hno : ∀ s is i, I s is → ¬ ok (step s i).1 → I (step s i).2 is) {s : σ} {before : List ι}
    (hs : I s before) (is : List ι) :
    I (Run.final step s is) (before ++ accepted step ok s is) := by
  induction is generalizing s before with
  | nil =>
    rw [accepted, List.append_nil]
    exact hs
  | cons i is ih =>
    rw [accepted]
    split_ifs with h
    · rw [List.append_cons]
      exact ih (hok s before i hs h)
    · exact ih (hno s before i hs h)

/-- Under an invariant the condition on the steps may be weakened. -/
theorem Along.mono {Q : σ → ι → Prop} {I : σ → Prop} (hI : ∀ s i, I s → P s i → I (step s i).2)
    (hPQ : ∀ s i, I s → P s i → Q s i) {s : σ} {is : List ι} (h : Along step P s is) (hs : I s) :
    Along step Q s is := by
  induction is generalizing s with
  | nil => trivial
  | cons i is ih => exact ⟨hPQ s i hs h.1, ih h.2 (hI s i hs h.1)⟩

end Mealy

/-! ## Simulation -/

section Simulation

variable {σ τ ι κ ω : Type} {step : σ → ι → ω × σ} {step' : τ → ι → ω × τ}

/-- **The simulation rule**: related states give equal answers as long as the steps meet `P`. -/
theorem outputs_eq_of_sim {P : σ → ι → Prop} {R : σ → τ → Prop}
    (hR : ∀ s t i, R s t → P s i → (step s i).1 = (step' t i).1 ∧ R (step s i).2 (step' t i).2)
    {s : σ} {t : τ} {is : List ι} (h : Along step P s is) (hst : R s t) :
    outputs step s is = outputs step' t is := by
  induction is generalizing s t with
  | nil => rfl
  | cons i is ih =>
    obtain ⟨h1, h2⟩ := hR s t i hst h.1
    simp only [outputs, h1, ih h.2 h2]

/-- And they end in related states. -/
theorem final_of_sim {P : σ → ι → Prop} {R : σ → τ → Prop}
    (hR : ∀ s t i, R s t → P s i → R (step s i).2 (step' t i).2) {s : σ} {t : τ} {is : List ι}
    (h : Along step P s is) (hst : R s t) : R (final step s is) (final step' t is) := by
  induction is generalizing s t with
  | nil => exact hst
  | cons i is ih => exact ih h.2 (hR s t i hst h.1)

end Simulation

/-! ## Machines whose steps have guards -/

section Guarded

variable {σ ι : Type} (step : σ → ι → Option σ)

/-- Run the steps `is`; `none` when one of them is not enabled. -/
def exec (s : σ) : List ι → Option σ
  | [] => some s
  | i :: is => (step s i).bind fun s' => exec s' is

@[simp] theorem exec_nil (s : σ) : exec step s [] = some s := rfl

theorem exec_cons (s : σ) (i : ι) (is : List ι) :
    exec step s (i :: is) = (step s i).bind fun s' => exec step s' is := rfl

theorem exec_append (s : σ) (is js : List ι) :
    exec step s (is ++ js) = (exec step s is).bind fun s' => exec step s' js := by
  induction is generalizing s with
  | nil => rfl
  | cons i is ih =>
    rw [List.cons_append, exec_cons, exec_cons]
    cases step s i with
    | none => rfl
    | some s' => exact ih s'

variable {step}

theorem exec_cons_eq_some {s s' : σ} {i : ι} {is : List ι} :
    exec step s (i :: is) = some s' ↔ ∃ t, step s i = some t ∧ exec step t is = some s' := by
  rw [exec_cons, Option.bind_eq_some_iff]

theorem exec_append_eq_some {s s' : σ} {is js : List ι} :
    exec step s (is ++ js) = some s' ↔
      ∃ t, exec step s is = some t ∧ exec step t js = some s' := by
  rw [exec_append, Option.bind_eq_some_iff]

theorem exec_concat_eq_some {s s' : σ} {is : List ι} {i : ι} :
    exec step s (is ++ [i]) = some s' ↔ ∃ t, exec step s is = some t ∧ step t i = some s' := by
  simp only [exec_append_eq_some, exec_cons_eq_some, exec_nil, Option.some.injEq,
    exists_eq_right]

/-- **The invariant rule** for guarded steps. -/
theorem exec_invariant {I : σ → Prop} (hI : ∀ s i s', I s → step s i = some s' → I s') {s s' : σ}
    {is : List ι} (h : exec step s is = some s') (hs : I s) : I s' := by
  induction is generalizing s with
  | nil => cases h; exact hs
  | cons i is ih =>
    obtain ⟨t, ht, h⟩ := exec_cons_eq_some.mp h
    exact ih h (hI s i t hs ht)

/-- **The invariant rule** for a run whose steps all meet `P`. -/
theorem exec_invariant_of {P : σ → ι → Prop} {I : σ → Prop}
    (hI : ∀ s i s', I s → P s i → step s i = some s' → I s') {s s' : σ} {is : List ι}
    (h : exec step s is = some s')
    (hP : ∀ pre i post t, is = pre ++ i :: post → exec step s pre = some t → P t i)
    (hs : I s) : I s' := by
  induction is generalizing s with
  | nil => cases h; exact hs
  | cons i is ih =>
    obtain ⟨t, ht, h⟩ := exec_cons_eq_some.mp h
    refine ih h (fun pre j post u e hu => ?_) (hI s i t hs (hP [] i is s rfl rfl) ht)
    exact hP (i :: pre) j post u (by rw [e, List.cons_append])
      (exec_cons_eq_some.mpr ⟨t, ht, hu⟩)

/-- **What a run does to a state**: a reflexive and transitive relation that every step respects
under an invariant relates the two ends of a run. -/
theorem exec_rel {I : σ → Prop} (hI : ∀ s i s', I s → step s i = some s' → I s')
    {R : σ → σ → Prop} (hrefl : ∀ s, R s s) (htrans : ∀ s t u, R s t → R t u → R s u)
    (hR : ∀ s i s', I s → step s i = some s' → R s s') {s s' : σ} {is : List ι}
    (h : exec step s is = some s') (hs : I s) : R s s' := by
  induction is generalizing s with
  | nil => cases h; exact hrefl _
  | cons i is ih =>
    obtain ⟨t, ht, h⟩ := exec_cons_eq_some.mp h
    exact htrans _ _ _ (hR s i t hs ht) (ih h (hI s i t hs ht))

/-! ## How runs end -/

section Progress

variable {I : σ → Prop} {μ : σ → ℕ} (hI : ∀ s i s', I s → step s i = some s' → I s')
  (hμ : ∀ s i s', I s → step s i = some s' → μ s' < μ s)
include hI hμ

/-- **The termination rule**: a run is no longer than a measure that every step takes down. -/
theorem length_add_le_of_exec {s s' : σ} {is : List ι} (h : exec step s is = some s')
    (hs : I s) : is.length + μ s' ≤ μ s := by
  induction is generalizing s with
  | nil =>
    cases h
    exact Nat.le_of_eq (Nat.zero_add _)
  | cons i is ih =>
    obtain ⟨t, ht, h⟩ := exec_cons_eq_some.mp h
    have hlt : μ t < μ s := hμ s i t hs ht
    have hle : is.length + μ s' ≤ μ t := ih h (hI s i t hs ht)
    rw [List.length_cons]
    omega

/-- **The progress rule**: where a step of the kind `P` is enabled until `Q`, some run of such
steps gets there. -/
theorem exists_exec_of_progress {P : ι → Prop} {Q : σ → Prop}
    (hprogress : ∀ s, I s → ¬ Q s → ∃ i s', P i ∧ step s i = some s') {s : σ} (hs : I s) :
    ∃ is s', (∀ i ∈ is, P i) ∧ exec step s is = some s' ∧ Q s' := by
  induction hn : μ s using Nat.strongRecOn generalizing s with
  | ind n ih =>
    by_cases hdone : Q s
    · exact ⟨[], s, fun _ h => absurd h List.not_mem_nil, rfl, hdone⟩
    · obtain ⟨i, t, hi, ht⟩ := hprogress s hs hdone
      obtain ⟨is, u, his, hu, hdone⟩ := ih (μ t) (hn ▸ hμ s i t hs ht) (hI s i t hs ht) rfl
      refine ⟨i :: is, u, fun j hj => ?_, exec_cons_eq_some.mpr ⟨t, ht, hu⟩, hdone⟩
      rcases List.mem_cons.mp hj with rfl | hj
      · exact hi
      · exact his j hj

end Progress

end Guarded

end Run
