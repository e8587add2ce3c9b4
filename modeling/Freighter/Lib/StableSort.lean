import Mathlib.Data.List.Sort

/-!
# Sorting by a key

`sortByKey key` sorts a list by the keys of its elements and leaves those of one key in their order.

* `perm_sortByKey`, `pairwise_sortByKey`, **`filter_sortByKey`**: what it gives.
* **`sortByKey_eq_iff`**: two lists are sorted into one iff they have the same elements of each key,
  in the same order; `sort_eq_iff`: when the elements are their own keys, iff they are permutations.
* **`mergeSort_eq_of_perm`**: if the keys are distinct, there is one way to sort.
-/

section Keys

variable {α β : Type*} [LinearOrder β] (key : α → β) {l m : List α}

/-- A stable sort by the keys. -/
def sortByKey (l : List α) : List α := l.insertionSort fun a b => key a ≤ key b

instance isTransKey : IsTrans α fun a b => key a ≤ key b := ⟨fun _ _ _ => le_trans⟩

instance totalKey : Std.Total fun a b : α => key a ≤ key b := ⟨fun a b => le_total (key a) (key b)⟩

theorem perm_sortByKey (l : List α) : (sortByKey key l).Perm l := List.perm_insertionSort _ l

theorem pairwise_sortByKey (l : List α) : (sortByKey key l).Pairwise fun a b => key a ≤ key b :=
  List.pairwise_insertionSort _ l

/-- **The elements of one key stay in their order.** -/
theorem filter_sortByKey (l : List α) (k : β) :
    (sortByKey key l).filter (fun a => key a = k) = l.filter fun a => key a = k := by
  have hpair : (l.filter fun a => key a = k).Pairwise fun a b => key a ≤ key b := by
    refine List.pairwise_of_forall_mem_list fun a ha b hb => ?_
    rw [of_decide_eq_true (List.mem_filter.mp ha).2, of_decide_eq_true (List.mem_filter.mp hb).2]
  have hsub := (List.sublist_insertionSort hpair List.filter_sublist).filter fun a => key a = k
  rw [List.filter_filter] at hsub
  simp only [Bool.and_self] at hsub
  exact (hsub.eq_of_length ((perm_sortByKey key l).filter _).length_eq.symm).symm

variable {key}

theorem mem_of_filter (h : ∀ k, l.filter (fun a => key a = k) = m.filter fun a => key a = k) {a : α}
    (ha : a ∈ l) : a ∈ m := by
  have hmem : a ∈ l.filter fun b => key b = key a := List.mem_filter.mpr ⟨ha, by simp⟩
  rw [h] at hmem
  exact (List.mem_filter.mp hmem).1

/-- Sorted lists are equal when they have the same elements of each key, in the same order. -/
theorem eq_of_pairwise_of_filter (hl : l.Pairwise fun a b => key a ≤ key b)
    (hm : m.Pairwise fun a b => key a ≤ key b)
    (h : ∀ k, l.filter (fun a => key a = k) = m.filter fun a => key a = k) : l = m := by
  induction l generalizing m with
  | nil =>
    cases m with
    | nil => rfl
    | cons b m => exact absurd (mem_of_filter (fun k => (h k).symm) List.mem_cons_self) (by simp)
  | cons a l ih =>
    cases m with
    | nil => exact absurd (mem_of_filter h List.mem_cons_self) (by simp)
    | cons b m =>
      -- the heads have the least keys, and each is in the other list
      have hle : ∀ {c d : α} {n : List α}, (d :: n).Pairwise (fun a b => key a ≤ key b) →
          c ∈ d :: n → key d ≤ key c := by
        intro c d n hn hc
        rcases List.mem_cons.mp hc with rfl | hc
        · exact le_refl _
        · exact List.rel_of_pairwise_cons hn hc
      have hkey : key a = key b :=
        le_antisymm (hle hl (mem_of_filter (fun k => (h k).symm) List.mem_cons_self))
          (hle hm (mem_of_filter h List.mem_cons_self))
      have hhead := h (key a)
      rw [List.filter_cons_of_pos (by simp), List.filter_cons_of_pos (by simp [hkey])] at hhead
      obtain ⟨rfl, htail⟩ := List.cons.inj hhead
      refine congrArg _ (ih hl.of_cons hm.of_cons fun k => ?_)
      by_cases hk : key a = k
      · rw [← hk, htail]
      · have hrest := h k
        rw [List.filter_cons_of_neg (by simp [hk]), List.filter_cons_of_neg (by simp [hk])] at hrest
        exact hrest

/-- **Two lists are sorted into one** iff they have the same elements of each key, in the same
order. -/
theorem sortByKey_eq_iff : sortByKey key l = sortByKey key m ↔
    ∀ k, l.filter (fun a => key a = k) = m.filter fun a => key a = k := by
  constructor
  · intro h k
    rw [← filter_sortByKey key l, h, filter_sortByKey]
  · intro h
    refine eq_of_pairwise_of_filter (pairwise_sortByKey key l) (pairwise_sortByKey key m) ?_
    intro k
    rw [filter_sortByKey, filter_sortByKey, h k]

theorem sortByKey_eq_self_iff : sortByKey key l = l ↔ l.Pairwise fun a b => key a ≤ key b :=
  ⟨fun h => h ▸ pairwise_sortByKey key l, fun h => List.Pairwise.insertionSort_eq h⟩

/-- When the elements are their own keys. -/
theorem sort_eq_iff {l m : List β} : sortByKey id l = sortByKey id m ↔ l.Perm m := by
  constructor
  · intro h
    exact ((perm_sortByKey id l).symm.trans (List.Perm.of_eq h)).trans (perm_sortByKey id m)
  · intro h
    exact (((perm_sortByKey id l).trans h).trans (perm_sortByKey id m).symm).eq_of_pairwise
      (fun _ _ _ _ => le_antisymm) (pairwise_sortByKey id l) (pairwise_sortByKey id m)

/-! ## Distinct keys -/

variable {r : α → α → Bool}

theorem pairwise_mergeSort_key (hr : ∀ a b, r a b = true ↔ key a ≤ key b) (l : List α) :
    (l.mergeSort r).Pairwise fun a b => key a ≤ key b := by
  have hsorted : (l.mergeSort r).Pairwise fun a b => r a b = true := by
    apply List.pairwise_mergeSort
    · intro a b c hab hbc
      rw [hr] at hab hbc ⊢
      exact hab.trans hbc
    · intro a b
      rw [Bool.or_eq_true, hr, hr]
      exact le_total _ _
  exact hsorted.imp fun h => (hr _ _).mp h

/-- **Elements of distinct keys are sorted in one way**, by any sort and from any order. -/
theorem mergeSort_eq_of_perm (hr : ∀ a b, r a b = true ↔ key a ≤ key b) (h : l.Perm m)
    (hn : (m.map key).Nodup) : l.mergeSort r = m.mergeSort r := by
  have hl := List.mergeSort_perm l r
  have hm := List.mergeSort_perm m r
  apply List.Perm.eq_of_pairwise _ (pairwise_mergeSort_key hr l) (pairwise_mergeSort_key hr m)
    ((hl.trans h).trans hm.symm)
  intro a b ha hb hab hba
  exact List.inj_on_of_nodup_map hn (h.mem_iff.mp (hl.mem_iff.mp ha)) (hm.mem_iff.mp hb)
    (le_antisymm hab hba)

end Keys
