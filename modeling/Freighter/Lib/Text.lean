import Mathlib.Data.List.TakeWhile
import Mathlib.Data.List.Infix
import Std.Data.String.ToNat

/-!
# Reading texts apart

* **`append_inj_of_stop`**: two words of one class, followed by texts that start outside it, are
  equal when the whole texts are.
* `repr_append_inj`: the same for decimal numbers.
* `utf8_injective`, `mem_utf8`: characters and their UTF-8 bytes; `splitAt`: slices at bytes.
* `infix_append_cons`: a word without the separator lies on one side of it.
-/

namespace Text

/-- The text does not start with a character of the class `p`. -/
def Stops (p : Char → Bool) (r : List Char) : Prop := ∀ c cs, r = c :: cs → p c = false

theorem stops_nil (p : Char → Bool) : Stops p [] := fun _ _ h => by cases h

theorem stops_cons {p : Char → Bool} {c : Char} {cs : List Char} (h : p c = false) :
    Stops p (c :: cs) := fun _ _ e => by cases e; exact h

theorem takeWhile_append_of_stops {p : Char → Bool} {w r : List Char} (hw : ∀ c ∈ w, p c = true)
    (hr : Stops p r) : (w ++ r).takeWhile p = w := by
  induction w with
  | nil =>
    cases r with
    | nil => rfl
    | cons c cs => simp [hr c cs rfl]
  | cons c w ih =>
    rw [List.cons_append, List.takeWhile_cons, if_pos (hw c List.mem_cons_self),
      ih fun d hd => hw d (List.mem_cons_of_mem _ hd)]

/-- **Words of a class are read apart from what follows them.** -/
theorem append_inj_of_stop {p : Char → Bool} {w v r s : List Char} (hw : ∀ c ∈ w, p c = true)
    (hv : ∀ c ∈ v, p c = true) (hr : Stops p r) (hs : Stops p s) (h : w ++ r = v ++ s) :
    w = v ∧ r = s := by
  have e : w = v := by
    rw [← takeWhile_append_of_stops hw hr, ← takeWhile_append_of_stops hv hs, h]
  subst e
  exact ⟨rfl, List.append_cancel_left h⟩

theorem isDigit_of_mem_repr {n : ℕ} {c : Char} (hc : c ∈ n.repr.toList) : c.isDigit = true := by
  rw [Nat.toList_repr] at hc
  exact Nat.isDigit_of_mem_toDigits (by decide) (by decide) hc

theorem exists_cons_repr (n : ℕ) : ∃ c cs, n.repr.toList = c :: cs ∧ c.isDigit = true := by
  cases h : n.repr.toList with
  | nil =>
    rw [Nat.toList_repr] at h
    exact absurd (Nat.length_toDigits_pos (b := 10) (n := n)) (by simp [h])
  | cons c cs => exact ⟨c, cs, rfl, isDigit_of_mem_repr (h ▸ List.mem_cons_self)⟩

/-- Decimal numbers are read apart from what follows them. -/
theorem repr_append_inj {m n : ℕ} {r s : List Char} (hr : Stops Char.isDigit r)
    (hs : Stops Char.isDigit s) (h : m.repr.toList ++ r = n.repr.toList ++ s) :
    m = n ∧ r = s := by
  obtain ⟨h1, h2⟩ := append_inj_of_stop (fun _ => isDigit_of_mem_repr)
    (fun _ => isDigit_of_mem_repr) hr hs h
  exact ⟨Nat.repr_injective (String.toList_inj.mp h1), h2⟩

/-! ## UTF-8 -/

/-- The bytes of a text. -/
def utf8 (cs : List Char) : List UInt8 := cs.flatMap String.utf8EncodeChar

theorem utf8_injective : Function.Injective utf8 := fun cs ds h => by
  have h' : cs.utf8Encode = ds.utf8Encode := by simp only [List.utf8Encode]; exact congrArg _ h
  have := String.toByteArray_inj.mp
    ((String.toByteArray_ofList (l := cs)).trans
      (h'.trans (String.toByteArray_ofList (l := ds)).symm))
  simpa using congrArg String.toList this

/-- The bytes of a character tell where they end. -/
theorem utf8EncodeChar_append_inj {c d : Char} {x y : List UInt8}
    (h : String.utf8EncodeChar c ++ x = String.utf8EncodeChar d ++ y) : c = d ∧ x = y := by
  have hc := ByteArray.utf8DecodeChar?_utf8EncodeChar_append (b := x.toByteArray) (c := c)
  have hd := ByteArray.utf8DecodeChar?_utf8EncodeChar_append (b := y.toByteArray) (c := d)
  rw [← List.toByteArray_append, h, List.toByteArray_append, hd] at hc
  obtain rfl := Option.some.inj hc
  exact ⟨rfl, List.append_cancel_left h⟩

/-- A text whose bytes begin another's begins it. -/
theorem utf8_prefix {cs ds : List Char} {q : List UInt8} (h : utf8 cs ++ q = utf8 ds) :
    ∃ es, ds = cs ++ es ∧ q = utf8 es := by
  induction cs generalizing ds with
  | nil => exact ⟨ds, rfl, h⟩
  | cons c cs ih =>
    cases ds with
    | nil =>
      rw [utf8, List.flatMap_cons, List.append_assoc] at h
      exact absurd (List.append_eq_nil_iff.mp h).1 String.utf8EncodeChar_ne_nil
    | cons d ds =>
      simp only [utf8, List.flatMap_cons, List.append_assoc] at h
      obtain ⟨rfl, h'⟩ := utf8EncodeChar_append_inj h
      obtain ⟨es, rfl, hq⟩ := ih h'
      exact ⟨es, rfl, hq⟩

/-- A byte below 128 only comes from the character it is. -/
theorem mem_utf8 {b : UInt8} {cs : List Char} (hb : b.toNat < 128) (h : b ∈ utf8 cs) :
    ∃ c ∈ cs, c.toNat = b.toNat := by
  obtain ⟨c, hc, hbc⟩ := List.mem_flatMap.mp h
  refine ⟨c, hc, ?_⟩
  have hv : c.toNat = c.val.toNat := rfl
  simp only [String.utf8EncodeChar] at hbc
  split_ifs at hbc <;> simp only [List.mem_cons, List.not_mem_nil, or_false] at hbc
  · subst hbc; rw [UInt8.toNat_ofNat']; omega
  · rcases hbc with rfl | rfl <;> rw [UInt8.toNat_ofNat'] at hb <;> omega
  · rcases hbc with rfl | rfl | rfl <;> rw [UInt8.toNat_ofNat'] at hb <;> omega
  · rcases hbc with rfl | rfl | rfl | rfl <;> rw [UInt8.toNat_ofNat'] at hb <;> omega

/-! ## Slices -/

/-- `str::split_at`, after a number of bytes; `none` when no character ends there. -/
def splitAt : ℕ → List Char → Option (List Char × List Char)
  | 0, cs => some ([], cs)
  | _ + 1, [] => none
  | n + 1, c :: cs =>
    if c.utf8Size ≤ n + 1 then (splitAt (n + 1 - c.utf8Size) cs).map fun p => (c :: p.1, p.2)
    else none

/-- Where all characters have one byte, every place is between two of them. -/
theorem splitAt_of_ascii {cs : List Char} (h : ∀ c ∈ cs, c.utf8Size = 1) {n : ℕ}
    (hn : n ≤ cs.length) : splitAt n cs = some (cs.take n, cs.drop n) := by
  induction cs generalizing n with
  | nil =>
    obtain rfl : n = 0 := Nat.le_zero.mp hn
    rfl
  | cons c cs ih =>
    cases n with
    | zero => rfl
    | succ n =>
      have hc := h c List.mem_cons_self
      rw [splitAt, if_pos (by omega), hc, Nat.add_sub_cancel,
        ih (fun d hd => h d (List.mem_cons_of_mem _ hd)) (Nat.le_of_succ_le_succ hn)]
      rfl

theorem length_utf8 {cs : List Char} (h : ∀ c ∈ cs, c.utf8Size = 1) :
    (utf8 cs).length = cs.length := by
  induction cs with
  | nil => rfl
  | cons c cs ih =>
    rw [utf8, List.flatMap_cons, List.length_append, String.length_utf8EncodeChar,
      h c List.mem_cons_self, List.length_cons, Nat.add_comm]
    exact congrArg (· + 1) (ih fun d hd => h d (List.mem_cons_of_mem _ hd))

/-! ## Words between separators -/

section Infix

variable {α : Type*} {q a b : List α} {c : α}

theorem prefix_append_cons (hc : c ∉ q) : q <+: a ++ c :: b ↔ q <+: a := by
  refine ⟨fun h => ?_, fun h => h.trans (List.prefix_append _ _)⟩
  by_cases hlen : q.length ≤ a.length
  · exact List.prefix_of_prefix_length_le h (List.prefix_append _ _) hlen
  · have hsep : a ++ [c] <+: q := by
      have hfront : a ++ [c] <+: a ++ c :: b := ⟨b, by rw [List.append_assoc]; rfl⟩
      refine List.prefix_of_prefix_length_le hfront h ?_
      rw [List.length_append, List.length_singleton]
      omega
    exact absurd (hsep.subset (List.mem_append_right _ (List.mem_singleton_self c))) hc

/-- **A word without the separator lies on one side of it.** -/
theorem infix_append_cons (hc : c ∉ q) : q <:+: a ++ c :: b ↔ q <:+: a ∨ q <:+: b := by
  induction a with
  | nil =>
    have hnil : q <+: c :: b ↔ q = [] := by
      rw [← List.prefix_nil]
      exact prefix_append_cons (a := []) hc
    rw [List.nil_append, List.infix_cons_iff, hnil, List.infix_nil]
  | cons x a ih =>
    rw [List.cons_append, List.infix_cons_iff, List.infix_cons_iff, ih, ← List.cons_append,
      prefix_append_cons hc, or_assoc]

end Infix

end Text
