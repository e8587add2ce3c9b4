import Mathlib.Data.List.Infix
import Mathlib.Logic.Function.Basic

/-!
# Replacing the markers of a template

A template is a text with markers in it, each a name between an opening and a closing letter.

* `replace`: all occurrences of a pattern, from the left;
* `Piece`, `render`: templates, and the text that they stand for;
* **`replace_render`**: to replace a marker is to substitute for it, where no other text has the
  opening letter; **`replaceAll_render`**: one replacement after the other substitutes for all.
-/

namespace Text

section Replace

variable {α : Type*} [DecidableEq α]

/-- What is left of a text, the first `skip` letters of which belong to an occurrence. -/
def replaceFrom (pat new : List α) : ℕ → List α → List α
  | _, [] => []
  | skip + 1, _ :: cs => replaceFrom pat new skip cs
  | 0, c :: cs =>
    if pat.isPrefixOf (c :: cs) then new ++ replaceFrom pat new (pat.length - 1) cs
    else c :: replaceFrom pat new 0 cs

/-- `str::replace`, for a pattern that is not empty. -/
def replace (pat new : List α) : List α → List α := replaceFrom pat new 0

variable {pat new w cs : List α}

theorem replaceFrom_length (w cs : List α) :
    replaceFrom pat new w.length (w ++ cs) = replace pat new cs := by
  induction w with
  | nil => rfl
  | cons c w ih => exact ih

/-- An occurrence. -/
theorem replace_append (h : pat ≠ []) (cs : List α) :
    replace pat new (pat ++ cs) = new ++ replace pat new cs := by
  cases pat with
  | nil => exact absurd rfl h
  | cons c p =>
    have hfront : (c :: p).isPrefixOf (c :: (p ++ cs)) = true :=
      List.isPrefixOf_iff_prefix.mpr (List.prefix_append (c :: p) cs)
    have hrest : replaceFrom (c :: p) new p.length (p ++ cs) = replace (c :: p) new cs :=
      replaceFrom_length p cs
    rw [List.cons_append, replace, replaceFrom, if_pos hfront]
    exact congrArg (new ++ ·) hrest

/-- A letter at which no occurrence starts. -/
theorem replace_cons {c : α} (h : ¬ pat <+: c :: cs) :
    replace pat new (c :: cs) = c :: replace pat new cs := by
  rw [replace, replaceFrom, if_neg (mt List.isPrefixOf_iff_prefix.mp h)]

/-- A text without the first letter of the pattern. -/
theorem replace_text {o : α} (hw : o ∉ w) (cs : List α) :
    replace (o :: pat) new (w ++ cs) = w ++ replace (o :: pat) new cs := by
  induction w with
  | nil => rfl
  | cons c w ih =>
    have hc : ¬ o :: pat <+: c :: (w ++ cs) := fun h =>
      hw (List.mem_cons.mpr (Or.inl (List.cons_prefix_cons.mp h).1))
    rw [List.cons_append, replace_cons hc, ih fun hmem => hw (List.mem_cons_of_mem c hmem)]
    rfl

end Replace

/-! ## Templates -/

section Template

variable {α κ : Type*} [DecidableEq α] [DecidableEq κ]

/-- A piece of a template. -/
inductive Piece (α κ : Type*) where
  | text (w : List α)
  | marker (k : κ)

/-- The text of a template, with these texts for its markers. -/
def render (values : κ → List α) (template : List (Piece α κ)) : List α :=
  template.flatMap fun
    | .text w => w
    | .marker k => values k

/-- The markers of these names. -/
def marker (o c : α) (name : κ → List α) (k : κ) : List α := o :: (name k ++ [c])

/-- No text of the template has the letter. -/
def Free (o : α) (template : List (Piece α κ)) : Prop := ∀ w, .text w ∈ template → o ∉ w

variable {o c : α} {name values : κ → List α} {k : κ}

omit [DecidableEq α] in
/-- Two names that are read up to the closing letter. -/
theorem eq_of_prefix_append {n n' : List α} (hn : c ∉ n) (hn' : c ∉ n') {cs : List α}
    (h : n ++ [c] <+: n' ++ c :: cs) : n = n' := by
  induction n generalizing n' with
  | nil =>
    cases n' with
    | nil => rfl
    | cons d n' => exact absurd (List.mem_cons.mpr (Or.inl (List.cons_prefix_cons.mp h).1)) hn'
  | cons d n ih =>
    cases n' with
    | nil => exact absurd (List.mem_cons.mpr (Or.inl (List.cons_prefix_cons.mp h).1.symm)) hn
    | cons d' n' =>
      obtain ⟨rfl, hrest⟩ := List.cons_prefix_cons.mp h
      rw [ih (fun hmem => hn (List.mem_cons_of_mem d hmem))
        (fun hmem => hn' (List.mem_cons_of_mem d hmem)) hrest]

omit [DecidableEq κ] in
/-- Another marker. -/
theorem replace_marker (hname : Function.Injective name) (hclose : ∀ k, c ∉ name k)
    (hopen : ∀ k, o ∉ name k) (hoc : o ≠ c) {k' : κ} (hk : k' ≠ k) (new cs : List α) :
    replace (marker o c name k) new (marker o c name k' ++ cs) =
      marker o c name k' ++ replace (marker o c name k) new cs := by
  have hother : ¬ o :: (name k ++ [c]) <+: o :: (name k' ++ [c] ++ cs) := by
    intro h
    have hrest := (List.cons_prefix_cons.mp h).2
    rw [List.append_assoc] at hrest
    exact hk (hname (eq_of_prefix_append (hclose k) (hclose k') hrest)).symm
  have htail : o ∉ name k' ++ [c] := by
    rw [List.mem_append, List.mem_singleton]
    exact not_or.mpr ⟨hopen k', hoc⟩
  calc replace (marker o c name k) new (marker o c name k' ++ cs)
      = o :: replace (marker o c name k) new (name k' ++ [c] ++ cs) := replace_cons hother
    _ = o :: (name k' ++ [c] ++ replace (marker o c name k) new cs) :=
        congrArg (o :: ·) (replace_text htail cs)

/-- **To replace a marker is to substitute for it.** -/
theorem replace_render (hname : Function.Injective name) (hclose : ∀ k, c ∉ name k)
    (hopen : ∀ k, o ∉ name k) (hoc : o ≠ c) {template : List (Piece α κ)} (hfree : Free o template)
    (hk : values k = marker o c name k)
    (hvalues : ∀ k', values k' = marker o c name k' ∨ o ∉ values k') (new : List α) :
    replace (marker o c name k) new (render values template) =
      render (Function.update values k new) template := by
  induction template with
  | nil => rfl
  | cons piece template ih =>
    have hrest := ih fun w hw => hfree w (List.mem_cons_of_mem piece hw)
    cases piece with
    | text w =>
      have hw := hfree w List.mem_cons_self
      exact (replace_text hw _).trans (congrArg (w ++ ·) hrest)
    | marker k' =>
      change replace _ new (values k' ++ render values template) =
        Function.update values k new k' ++ render (Function.update values k new) template
      rw [← hrest]
      rcases eq_or_ne k' k with rfl | hne
      · rw [Function.update_self, hk]
        exact replace_append (List.cons_ne_nil _ _) _
      · rw [Function.update_of_ne hne]
        rcases hvalues k' with hmarker | hplain
        · rw [hmarker, replace_marker hname hclose hopen hoc hne]
        · exact replace_text hplain _

/-- One replacement after the other. -/
def replaceAll (o c : α) (name : κ → List α) (new : κ → List α) : List κ → List α → List α
  | [], cs => cs
  | k :: ks, cs => replaceAll o c name new ks (replace (marker o c name k) (new k) cs)

/-- **One replacement after the other substitutes for all the markers**, if what is substituted does
not have the opening letter. -/
theorem replaceAll_render (hname : Function.Injective name) (hclose : ∀ k, c ∉ name k)
    (hopen : ∀ k, o ∉ name k) (hoc : o ≠ c) {template : List (Piece α κ)} (hfree : Free o template)
    {new : κ → List α} (hnew : ∀ k, o ∉ new k) {ks : List κ} (hks : ks.Nodup) (hall : ∀ k, k ∈ ks) :
    replaceAll o c name new ks (render (marker o c name) template) = render new template := by
  have hrun : ∀ ks : List κ, ks.Nodup → ∀ values : κ → List α,
      (∀ k, values k = if k ∈ ks then marker o c name k else new k) →
        replaceAll o c name new ks (render values template) = render new template := by
    intro ks hks
    induction ks with
    | nil =>
      intro values hvalues
      have hdone : values = new := funext fun k => by rw [hvalues k, if_neg List.not_mem_nil]
      rw [hdone]
      rfl
    | cons k ks ih =>
      intro values hvalues
      obtain ⟨hmem, hnodup⟩ := List.nodup_cons.mp hks
      have hk : values k = marker o c name k := by
        rw [hvalues k, if_pos List.mem_cons_self]
      have hkinds : ∀ k', values k' = marker o c name k' ∨ o ∉ values k' := by
        intro k'
        rw [hvalues k']
        split_ifs
        · exact Or.inl rfl
        · exact Or.inr (hnew k')
      rw [replaceAll, replace_render hname hclose hopen hoc hfree hk hkinds]
      refine ih hnodup _ fun k' => ?_
      rcases eq_or_ne k' k with rfl | hne
      · rw [Function.update_self, if_neg hmem]
      · rw [Function.update_of_ne hne, hvalues k']
        simp only [List.mem_cons, hne, false_or]
  exact hrun ks hks _ fun k => (if_pos (hall k)).symm

end Template

end Text
