import Freighter.Lib.Paging
import Freighter.Storage.S3
import Mathlib.Data.String.Basic

/-!
# What the bucket lists

`list_prefix` makes one `ListObjects` call, which answers with a page of at most `MAX_KEYS` keys.

* `listPrefix`, with the call as a parameter; `Serves`: what S3 promises of it.
* `Complete`: a listing has every key with the prefix, once.
* **`complete_iff`**, `complete_iff_le`: exactly when it does.
-/

namespace Freighter

namespace S3

open Paging

/-! ## The call -/

/-- `Object`, what is read of it. -/
structure Object where
  key : Option String

/-- `ListObjectsOutput`. -/
structure ListObjectsOutput where
  contents : List Object
  isTruncated : Option Bool

/-- `list_prefix`. -/
def listPrefix {ε : Type} (listObjects : String → Except ε ListObjectsOutput) (index : String) :
    Except StorageError (List String) :=
  match listObjects index with
  | .error _ => .error .serviceError
  | .ok objects => .ok (objects.contents.filterMap Object.key)

/-! ## The service -/

/-- The most keys that S3 returns in one answer. -/
def MAX_KEYS : ℕ := 1000

/-- The keys with the prefix. -/
def matching (keys : Finset String) (index : String) : Finset String :=
  keys.filter fun k => index.toList <+: k.toList

/-- An answer with these keys. -/
def answer (page : List String) (truncated : Bool) : ListObjectsOutput :=
  ⟨page.map fun k => ⟨some k⟩, some truncated⟩

/-- What S3 promises of `ListObjects` on a bucket with these keys: a page of those with the
prefix. -/
def Serves {ε : Type} (keys : Finset String) (listObjects : String → Except ε ListObjectsOutput) :
    Prop :=
  ∀ index, ∃ page truncated, listObjects index = .ok (answer page truncated) ∧
    IsPage MAX_KEYS (matching keys index) page truncated

/-- The answer is marked as truncated. -/
def Truncates {ε : Type} (listObjects : String → Except ε ListObjectsOutput) (index : String) :
    Prop :=
  ∃ objects, listObjects index = .ok objects ∧ objects.isTruncated = some true

/-- S3 truncates this answer, if at all, at `MAX_KEYS` keys. -/
def FillsPage {ε : Type} (listObjects : String → Except ε ListObjectsOutput) (index : String) :
    Prop :=
  ∀ objects, listObjects index = .ok objects → objects.isTruncated = some true →
    objects.contents.length = MAX_KEYS

/-- The bucket has objects at these keys. -/
def HasKeys (b : Bucket) (keys : Finset String) : Prop := ∀ k, k ∈ keys ↔ b k ≠ none

/-- The listing returns every key of the bucket with the prefix, once. -/
def Complete (b : Bucket) (index : String) (r : Except StorageError (List String)) : Prop :=
  ∃ out, r = .ok out ∧ out.Nodup ∧ ∀ k, k ∈ out ↔ b k ≠ none ∧ index.toList <+: k.toList

section Complete

variable {ε : Type} {listObjects : String → Except ε ListObjectsOutput} {b : Bucket}
  {keys : Finset String} {index : String} {page : List String} {truncated : Bool}

theorem mem_matching (hb : HasKeys b keys) {k : String} :
    k ∈ matching keys index ↔ b k ≠ none ∧ index.toList <+: k.toList := by
  rw [matching, Finset.mem_filter, hb k]

theorem listPrefix_of_answer (h : listObjects index = .ok (answer page truncated)) :
    listPrefix listObjects index = .ok page := by
  unfold listPrefix
  rw [h]
  simp only [answer, List.filterMap_map, Function.comp_def, List.filterMap_some]

theorem truncates_iff (h : listObjects index = .ok (answer page truncated)) :
    Truncates listObjects index ↔ truncated = true := by
  unfold Truncates
  rw [h]
  simp [answer]

/-- **Exactly when a listing is complete**: the one answer is not truncated. -/
theorem complete_iff (hb : HasKeys b keys) (h : Serves keys listObjects) :
    Complete b index (listPrefix listObjects index) ↔ ¬ Truncates listObjects index := by
  obtain ⟨page, truncated, hanswer, hpage⟩ := h index
  rw [truncates_iff hanswer, Bool.not_eq_true, ← hpage.complete_iff,
    listPrefix_of_answer hanswer]
  constructor
  · rintro ⟨out, ho, -, hall⟩ k
    cases ho
    rw [hall k, mem_matching hb]
  · intro hall
    refine ⟨page, rfl, hpage.nodup, fun k => ?_⟩
    rw [hall k, mem_matching hb]

/-- The service truncates what does not fit. -/
theorem truncates_of_lt (h : Serves keys listObjects)
    (hlt : MAX_KEYS < (matching keys index).card) :
    Truncates listObjects index := by
  obtain ⟨page, truncated, hanswer, hpage⟩ := h index
  exact (truncates_iff hanswer).mpr (hpage.truncated_of_lt hlt)

/-- **The same by the number of keys**, if the service truncates full answers only. -/
theorem complete_iff_le (hb : HasKeys b keys) (h : Serves keys listObjects)
    (hfull : FillsPage listObjects index) :
    Complete b index (listPrefix listObjects index) ↔ (matching keys index).card ≤ MAX_KEYS := by
  rw [complete_iff hb h, ← not_lt, not_iff_not]
  refine ⟨fun ht => ?_, truncates_of_lt h⟩
  obtain ⟨page, truncated, hanswer, hpage⟩ := h index
  refine (hpage.truncated_iff fun htrue => ?_).mp ((truncates_iff hanswer).mp ht)
  have hlen := hfull _ hanswer (congrArg some htrue)
  rwa [answer, List.length_map] at hlen

end Complete

/-! ## A service -/

/-- The service that answers with the longest page. -/
def listFirst (keys : Finset String) (index : String) : Except Unit ListObjectsOutput :=
  .ok (answer (firstPage MAX_KEYS (matching keys index)).1
    (firstPage MAX_KEYS (matching keys index)).2)

theorem serves_listFirst (keys : Finset String) : Serves keys (listFirst keys) :=
  fun _ => ⟨_, _, rfl, isPage_firstPage _ _⟩

theorem fillsPage_listFirst (keys : Finset String) (index : String) :
    FillsPage (listFirst keys) index := by
  rintro objects ho ht
  cases ho
  have hlt : MAX_KEYS < (matching keys index).card := by
    simpa [answer, firstPage] using ht
  simp only [answer, firstPage, List.length_map, List.length_take, Finset.length_sort]
  omega

end S3

end Freighter
