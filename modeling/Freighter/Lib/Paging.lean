import Mathlib.Data.Finset.Sort

/-!
# Pages of a listing

A service that lists a finite set in order answers with a page: a front of the sorted list, of at
most `limit` elements, and a mark when it leaves something out.

* `IsPage`; `firstPage`, the longest page;
* **`IsPage.complete_iff`**: a page is the whole set iff it is not marked.

A service can cut the sorted list into blocks instead.

* `chunks`; `getD_chunks`: the block of a number; **`flatten_blocks`**: blocks one after the other.
-/

namespace Paging

variable {α : Type} [LinearOrder α]

/-- A page of the set `s`. -/
structure IsPage (limit : ℕ) (s : Finset α) (page : List α) (truncated : Bool) : Prop where
  front : page <+: s.sort
  length_le : page.length ≤ limit
  marked : truncated = true ↔ page.length < s.card

/-- The page that is full if it can be. -/
def firstPage (limit : ℕ) (s : Finset α) : List α × Bool :=
  (s.sort.take limit, decide (limit < s.card))

theorem isPage_firstPage (limit : ℕ) (s : Finset α) :
    IsPage limit s (firstPage limit s).1 (firstPage limit s).2 where
  front := List.take_prefix _ _
  length_le := List.length_take_le _ _
  marked := by
    simp only [firstPage, decide_eq_true_eq, List.length_take, Finset.length_sort]
    omega

namespace IsPage

variable {limit : ℕ} {s : Finset α} {page : List α} {truncated : Bool}

theorem nodup (h : IsPage limit s page truncated) : page.Nodup :=
  (Finset.sort_nodup s _).sublist h.front.sublist

theorem mem (h : IsPage limit s page truncated) {a : α} (ha : a ∈ page) : a ∈ s :=
  (Finset.mem_sort _).mp (h.front.subset ha)

/-- A page that is not marked is the sorted list. -/
theorem eq_sort (h : IsPage limit s page truncated) (ht : truncated = false) : page = s.sort := by
  have hlen : ¬ page.length < s.card := fun hlt => by
    rw [h.marked.mpr hlt] at ht
    cases ht
  refine h.front.eq_of_length_le ?_
  rw [Finset.length_sort]
  omega

/-- **When a page is everything.** -/
theorem complete_iff (h : IsPage limit s page truncated) :
    (∀ a, a ∈ page ↔ a ∈ s) ↔ truncated = false := by
  constructor
  · intro hall
    have hsub : s.card ≤ page.length :=
      (Finset.card_le_card fun a ha => List.mem_toFinset.mpr ((hall a).mpr ha)).trans
        (List.toFinset_card_le page)
    rw [← Bool.not_eq_true, h.marked]
    omega
  · intro ht a
    rw [h.eq_sort ht, Finset.mem_sort]

/-- A set of more than `limit` elements does not fit. -/
theorem truncated_of_lt (h : IsPage limit s page truncated) (hs : limit < s.card) :
    truncated = true :=
  h.marked.mpr (h.length_le.trans_lt hs)

/-- If no page is cut short of its limit, the limit alone decides. -/
theorem truncated_iff (h : IsPage limit s page truncated)
    (hfull : truncated = true → page.length = limit) : truncated = true ↔ limit < s.card := by
  refine ⟨fun ht => ?_, h.truncated_of_lt⟩
  rw [← hfull ht]
  exact h.marked.mp ht

end IsPage

/-- A list of all the elements of a set, each once, counts what the set counts. -/
theorem length_filter_eq_card {s : Finset α} {out : List α} (hn : out.Nodup)
    (hall : ∀ a, a ∈ out ↔ a ∈ s) (p : α → Bool) :
    (out.filter p).length = (s.filter fun a => p a = true).card := by
  rw [← List.toFinset_card_of_nodup (hn.filter p)]
  congr 1
  ext a
  simp only [List.mem_toFinset, List.mem_filter, Finset.mem_filter, hall a]

/-! ## Blocks -/

section Chunks

variable {β : Type} {size : ℕ} {l : List β} {bs : List (List β)}

/-- The block of a number, from zero. -/
def block (size : ℕ) (l : List β) (i : ℕ) : List β := (l.drop (i * size)).take size

/-- `slice::chunks`: blocks of one size, but for the last. A size of zero is a panic: `none`. -/
def chunks (size : ℕ) (l : List β) : Option (List (List β)) :=
  if size = 0 then none
  else some ((List.range ((l.length + size - 1) / size)).map (block size l))

example : chunks 2 [1, 2, 3] = some [[1, 2], [3]] := by decide

theorem block_eq_nil {i : ℕ} (h : l.length ≤ i * size) : block size l i = [] := by
  unfold block
  rw [List.drop_eq_nil_of_le h, List.take_nil]

/-- A block, or nothing after the last one. -/
theorem getD_chunks (h : chunks size l = some bs) (i : ℕ) : bs[i]?.getD [] = block size l i := by
  unfold chunks at h
  split_ifs at h with hsize
  cases h
  rw [List.getElem?_map]
  by_cases hi : i < (l.length + size - 1) / size
  · rw [List.getElem?_range hi]
    rfl
  · rw [List.getElem?_eq_none (by rw [List.length_range]; omega)]
    have hlt : (l.length + size - 1) / size < i + 1 := by omega
    rw [Nat.div_lt_iff_lt_mul (Nat.pos_of_ne_zero hsize), Nat.succ_mul] at hlt
    exact (block_eq_nil (by omega)).symm

/-- **The blocks are the list.** -/
theorem flatten_blocks (size : ℕ) (l : List β) :
    ∀ m, ((List.range m).map (block size l)).flatten = l.take (m * size)
  | 0 => by simp
  | m + 1 => by
    rw [List.range_succ, List.map_append, List.flatten_append, flatten_blocks size l m,
      Nat.succ_mul, List.take_add]
    simp [block]

end Chunks

end Paging
