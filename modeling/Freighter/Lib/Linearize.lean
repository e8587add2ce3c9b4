import Freighter.Lib.Run
import Mathlib.Data.List.Induction
import Mathlib.Data.List.Zip
import Mathlib.Logic.Function.Basic

/-!
# Operations in many steps

A machine whose operations take many steps, against one that does each operation at once.

* `history`: the operations of a run, in the order in which their answers are decided;
* `Simulates`: a step decides no answer, or the one that the operation at once gives;
* **`linearize`**: then every answer is that of the operation at once, at its place in the history.
-/

namespace Run

section Linearize

variable {σ ι τ κ φ ρ : Type} (step : σ → ι → Option σ) (decided : σ → κ → Option ρ) (who : ι → κ)
  (how : ι → φ)

/-- The operation whose answer a step decides, with how it went. -/
def decides (s s' : σ) (a : ι) : Option (κ × φ) :=
  match decided s (who a), decided s' (who a) with
  | none, some _ => some (who a, how a)
  | _, _ => none

/-- The operations of a run, in the order in which their answers are decided. -/
def history (s : σ) : List ι → List (κ × φ)
  | [] => []
  | a :: as =>
    match step s a with
    | none => []
    | some s' => (decides decided who how s s' a).toList ++ history s' as

variable {step decided who how}

/-- **What is decided comes before what is decided later.** -/
theorem history_append {s s' : σ} {is : List ι} (h : exec step s is = some s') (js : List ι) :
    history step decided who how s (is ++ js) =
      history step decided who how s is ++ history step decided who how s' js := by
  induction is generalizing s with
  | nil =>
    cases h
    rfl
  | cons a is ih =>
    obtain ⟨t, ht, h⟩ := exec_cons_eq_some.mp h
    simp only [List.cons_append, history, ht, ih h, List.append_assoc]

theorem history_concat {s t s' : σ} {is : List ι} {a : ι} (h : exec step s is = some t)
    (ht : step t a = some s') : history step decided who how s (is ++ [a]) =
      history step decided who how s is ++ (decides decided who how t s' a).toList := by
  rw [history_append h]
  simp only [history, ht, List.append_nil]

variable [DecidableEq κ] (atOnce : τ → κ × φ → ρ × τ) (R : σ → τ → Prop)

variable (decided who how) in
/-- A step decides no answer, or the one that the operation at once gives. -/
inductive Simulates (s s' : σ) (t : τ) (a : ι) : Prop
  | silent (hR : R s' t) (hdecided : decided s' = decided s)
  | effect (hopen : decided s (who a) = none) (hR : R s' (atOnce t (who a, how a)).2)
      (hdecided : decided s' =
        Function.update (decided s) (who a) (some (atOnce t (who a, how a)).1))

variable {atOnce R}

/-- The keys of a list that is zipped with one of its length. -/
theorem exists_mem_zip {α β : Type} {l : List α} {l' : List β} (h : l.length = l'.length) {a : α}
    (ha : a ∈ l) : ∃ b, (a, b) ∈ l.zip l' := by
  rw [← List.map_fst_zip (Nat.le_of_eq h)] at ha
  obtain ⟨⟨a', b⟩, hab, rfl⟩ := List.mem_map.mp ha
  exact ⟨b, hab⟩

/-- **The linearization rule.** Every answer is the one that the operation at once gives, at its
place in the history; no operation is there twice, and the states stay related. -/
theorem linearize {P : ι → Prop}
    (hstep : ∀ s t a s', R s t → P a → step s a = some s' →
      Simulates decided who how atOnce R s s' t a)
    {s s' : σ} {t : τ} {is : List ι} (h : exec step s is = some s') (hP : ∀ a ∈ is, P a)
    (hs : R s t) (hopen : ∀ k, decided s k = none) :
    let log := history step decided who how s is
    R s' (final atOnce t log) ∧ (log.map Prod.fst).Nodup ∧
      ∀ k r, decided s' k = some r ↔ (k, r) ∈ (log.map Prod.fst).zip (outputs atOnce t log) := by
  induction is using List.reverseRecOn generalizing s' with
  | nil =>
    cases h
    refine ⟨hs, List.nodup_nil, fun k r => ?_⟩
    rw [hopen k]
    exact ⟨fun e => (nomatch e), fun hmem => absurd hmem List.not_mem_nil⟩
  | append_singleton is a ih =>
    obtain ⟨u, hu, ha⟩ := exec_concat_eq_some.mp h
    obtain ⟨hR, hnodup, hanswers⟩ := ih hu fun b hb => hP b (List.mem_append_left _ hb)
    have hPa : P a := hP a (List.mem_append_right _ (List.mem_singleton_self a))
    intro log
    have hlog : log =
        history step decided who how s is ++ (decides decided who how u s' a).toList :=
      history_concat hu ha
    rw [hlog]
    generalize history step decided who how s is = before at hR hnodup hanswers
    cases hstep u _ a s' hR hPa ha with
    | silent hR hdecided =>
      have hnone : decides decided who how u s' a = none := by
        unfold decides
        rw [hdecided]
        cases decided u (who a) <;> rfl
      rw [hnone, Option.toList_none, List.append_nil, hdecided]
      exact ⟨hR, hnodup, hanswers⟩
    | effect hnone hR hdecided =>
      have hlength : (before.map Prod.fst).length = (outputs atOnce t before).length := by
        rw [List.length_map, length_outputs]
      have hsome : decides decided who how u s' a = some (who a, how a) := by
        unfold decides
        rw [hdecided, Function.update_self, hnone]
      have hnew : who a ∉ before.map Prod.fst := by
        intro hmem
        obtain ⟨r, hr⟩ := exists_mem_zip hlength hmem
        rw [← hanswers, hnone] at hr
        cases hr
      rw [hsome, Option.toList_some, final_concat, List.map_append, outputs_concat,
        List.zip_append hlength]
      refine ⟨hR, ?_, fun k r => ?_⟩
      · refine List.nodup_append.mpr ⟨hnodup, List.pairwise_singleton _ _, ?_⟩
        intro k hk k' hk' e
        have hwho : k' = who a := List.mem_singleton.mp hk'
        rw [e, hwho] at hk
        exact hnew hk
      · rw [hdecided, List.mem_append, ← hanswers]
        rcases eq_or_ne k (who a) with rfl | hk
        · rw [Function.update_self, hnone]
          simp [eq_comm]
        · rw [Function.update_of_ne hk]
          simp [hk]

end Linearize

end Run
