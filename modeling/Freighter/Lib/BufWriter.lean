import Mathlib.Data.List.Basic

/-!
# Buffered writers

A buffered writer holds back what it is given, up to its capacity, and sends it on to the file below
in larger pieces. The disk decides what becomes of each send: it is written whole, or it fails when
a part of it is written.

* `BufWriter`, `send`, `flush`, `writeAll`, `writeChunks`.
* `HonestAt`: an operation succeeds iff none of its sends fails, and then it does what it does on
  a disk that never fails; **`honestAt_andThen`**, **`honestAt_writeChunks`**.
* `contents_writeChunks`, `tail_writeChunks`: nothing is lost, and the last piece is held back.
-/

/-- What becomes of each send: `none` if it is written, else the length of the part that is. -/
abbrev Disk : Type := ℕ → Option ℕ

/-- A disk that never fails. -/
def Disk.healthy : Disk := fun _ => none

/-- What is held back, what the file has, and the number of sends so far. -/
structure BufWriter (α : Type) where
  buf : List α
  written : List α
  sends : ℕ

namespace BufWriter

variable {α : Type}

def empty : BufWriter α := ⟨[], [], 0⟩

/-- What was given to the writer. -/
def contents (w : BufWriter α) : List α := w.written ++ w.buf

/-- An operation, which says whether it succeeds. -/
abbrev Op (α : Type) : Type := Disk → BufWriter α → Bool × BufWriter α

/-! ## The operations -/

/-- The length of the part of `l` that a failed send writes, which is never the whole. -/
def partOf (l : List α) (n : ℕ) : ℕ := min n (l.length - 1)

/-- Send `l` past the buffer. -/
def send (l : List α) : Op α := fun d w =>
  match d w.sends with
  | none => (true, { w with written := w.written ++ l, sends := w.sends + 1 })
  | some n => (false, { w with written := w.written ++ l.take (partOf l n), sends := w.sends + 1 })

/-- Send what is held back, if anything is. -/
def flush : Op α := fun d w =>
  if w.buf.isEmpty then (true, w)
  else
    match d w.sends with
    | none => (true, ⟨[], w.written ++ w.buf, w.sends + 1⟩)
    | some n => (false, ⟨w.buf.drop (partOf w.buf n), w.written ++ w.buf.take (partOf w.buf n),
        w.sends + 1⟩)

/-- Hold `l` back. -/
def hold (l : List α) : Op α := fun _ w => (true, { w with buf := w.buf ++ l })

/-- One operation after another, if the first succeeds. -/
def andThen (f g : Op α) : Op α := fun d w =>
  match f d w with
  | (true, w) => g d w
  | (false, w) => (false, w)

/-- Write `l`: hold it back if there is room, else make room for it first; what would fill the whole
buffer is sent past it. -/
def writeAll (cap : ℕ) (l : List α) : Op α := fun d w =>
  if l.length < cap - w.buf.length then hold l d w
  else
    andThen (if cap - w.buf.length < l.length then flush else hold [])
      (if cap ≤ l.length then send l else hold l) d w

def writeChunks (cap : ℕ) : List (List α) → Op α
  | [] => hold []
  | l :: ls => andThen (writeAll cap l) (writeChunks cap ls)

/-! ## Success and failure -/

/-- From `w` on, the operation succeeds iff none of its sends fails, and then it does what it does
on a disk that never fails. -/
structure HonestAt (op : Op α) (w : BufWriter α) : Prop where
  healthy : (op .healthy w).1 = true
  le_sends : w.sends ≤ (op .healthy w).2.sends
  clean : ∀ d : Disk, (∀ i, w.sends ≤ i → i < (op .healthy w).2.sends → d i = none) →
    op d w = op .healthy w
  fails : ∀ d : Disk, (∃ i, w.sends ≤ i ∧ i < (op .healthy w).2.sends ∧ d i ≠ none) →
    (op d w).1 = false

section Honest

variable {cap : ℕ} {l : List α} {w : BufWriter α} {f g : Op α}

/-- Only what the operation does at `w` counts. -/
theorem HonestAt.congr (h : HonestAt g w) (he : ∀ d, f d w = g d w) : HonestAt f w where
  healthy := by rw [he]; exact h.healthy
  le_sends := by rw [he]; exact h.le_sends
  clean d hd := by
    rw [he] at hd
    rw [he, he]
    exact h.clean d hd
  fails d hd := by
    rw [he] at hd ⊢
    exact h.fails d hd

theorem honestAt_hold : HonestAt (hold l) w where
  healthy := rfl
  le_sends := Nat.le_refl _
  clean _ _ := rfl
  fails d h := by
    obtain ⟨i, hi, hlt, -⟩ := h
    exact absurd hi (Nat.not_le.mpr hlt)

/-- One send decides by its own outcome. -/
theorem honestAt_one {done : BufWriter α} {part : ℕ → BufWriter α}
    (hf : ∀ d : Disk, f d w = match d w.sends with
      | none => (true, done)
      | some n => (false, part n)) (hs : done.sends = w.sends + 1) : HonestAt f w := by
  have hheal : f .healthy w = (true, done) := hf _
  refine ⟨?_, ?_, fun d h => ?_, fun d h => ?_⟩
  · rw [hheal]
  · rw [hheal, hs]
    exact Nat.le_succ _
  · rw [hheal, hs] at h
    rw [hheal, hf, h w.sends (Nat.le_refl _) (Nat.lt_succ_self _)]
  · rw [hheal, hs] at h
    obtain ⟨i, hi, hlt, hd⟩ := h
    have he : i = w.sends := Nat.le_antisymm (Nat.lt_succ_iff.mp hlt) hi
    subst he
    obtain ⟨n, hn⟩ := Option.ne_none_iff_exists'.mp hd
    rw [hf, hn]

theorem honestAt_send : HonestAt (send l) w := honestAt_one (fun _ => rfl) rfl

theorem honestAt_flush : HonestAt flush w := by
  by_cases he : w.buf.isEmpty = true
  · refine (honestAt_hold (l := ([] : List α))).congr fun d => ?_
    simp only [flush, he, if_true, hold, List.append_nil]
  · exact honestAt_one (fun d => if_neg he) rfl

theorem andThen_of_ok {d : Disk} (h : (f d w).1 = true) :
    andThen f g d w = g d (f d w).2 := by
  unfold andThen
  cases hf : f d w with
  | mk ok w' =>
    rw [hf] at h
    cases h
    rfl

theorem andThen_of_not_ok {d : Disk} (h : (f d w).1 = false) : (andThen f g d w).1 = false := by
  unfold andThen
  cases hf : f d w with
  | mk ok w' =>
    rw [hf] at h
    cases h
    rfl

/-- **Two honest operations, one after the other.** -/
theorem honestAt_andThen (hf : HonestAt f w) (hg : HonestAt g (f .healthy w).2) :
    HonestAt (andThen f g) w := by
  have hheal : andThen f g .healthy w = _ := andThen_of_ok hf.healthy
  -- past a first operation none of whose sends fails, the second one runs as on a healthy disk
  have hpast : ∀ d : Disk, (∀ i, w.sends ≤ i → i < (f .healthy w).2.sends → d i = none) →
      andThen f g d w = g d (f .healthy w).2 := by
    intro d hd
    have hfirst := hf.clean d hd
    rw [andThen_of_ok (by rw [hfirst]; exact hf.healthy), hfirst]
  refine ⟨?_, ?_, fun d h => ?_, fun d h => ?_⟩
  · rw [hheal]
    exact hg.healthy
  · rw [hheal]
    exact Nat.le_trans hf.le_sends hg.le_sends
  · rw [hheal] at h ⊢
    rw [hpast d fun i hi hlt => h i hi (Nat.lt_of_lt_of_le hlt hg.le_sends)]
    exact hg.clean d fun i hi hlt => h i (Nat.le_trans hf.le_sends hi) hlt
  · rw [hheal] at h
    obtain ⟨i, hi, hlt, hd⟩ := h
    by_cases hfirst : ∃ j, w.sends ≤ j ∧ j < (f .healthy w).2.sends ∧ d j ≠ none
    · exact andThen_of_not_ok (hf.fails d hfirst)
    · have hnone : ∀ j, w.sends ≤ j → j < (f .healthy w).2.sends → d j = none := by
        intro j hj hjlt
        by_contra hne
        exact hfirst ⟨j, hj, hjlt, hne⟩
      have hge : (f .healthy w).2.sends ≤ i := by
        by_contra hlt'
        exact hd (hnone i hi (Nat.lt_of_not_le hlt'))
      rw [hpast d hnone]
      exact hg.fails d ⟨i, hge, hlt, hd⟩

theorem honestAt_writeAll : HonestAt (writeAll cap l) w := by
  have hroom : HonestAt (if cap - w.buf.length < l.length then flush else hold []) w := by
    split_ifs
    · exact honestAt_flush
    · exact honestAt_hold
  have hput : ∀ v, HonestAt (if cap ≤ l.length then send l else hold l) v := by
    intro v
    split_ifs
    · exact honestAt_send
    · exact honestAt_hold
  by_cases hfits : l.length < cap - w.buf.length
  · exact honestAt_hold.congr fun d => if_pos hfits
  · exact (honestAt_andThen hroom (hput _)).congr fun d => if_neg hfits

/-- **Writing any pieces is honest.** -/
theorem honestAt_writeChunks (ls : List (List α)) : HonestAt (writeChunks cap ls) w := by
  induction ls generalizing w with
  | nil => exact honestAt_hold
  | cons l ls ih => exact honestAt_andThen honestAt_writeAll ih

end Honest

/-! ## What is written -/

section Contents

variable {cap : ℕ} {l : List α} {w : BufWriter α}

@[simp] theorem contents_hold (d : Disk) : (hold l d w).2.contents = w.contents ++ l := by
  simp only [contents, hold, List.append_assoc]

theorem contents_flush : (flush .healthy w).2.contents = w.contents := by
  unfold flush
  split_ifs with he
  · rfl
  · simp only [contents, Disk.healthy, List.append_nil]

theorem buf_flush : (flush .healthy w).2.buf = [] := by
  unfold flush
  split_ifs with he
  · exact List.isEmpty_iff.mp he
  · rfl

/-- What is written to a healthy disk, if there is room for it in the empty buffer, is held back. -/
theorem writeAll_of_lt (hl : l.length < cap) :
    (writeAll cap l .healthy w).2.contents = w.contents ++ l ∧
      ∃ front, (writeAll cap l .healthy w).2.buf = front ++ l := by
  unfold writeAll
  rw [if_neg (Nat.not_le.mpr hl)]
  by_cases hfits : l.length < cap - w.buf.length
  · rw [if_pos hfits]
    exact ⟨contents_hold _, w.buf, rfl⟩
  · rw [if_neg hfits]
    by_cases hroom : cap - w.buf.length < l.length
    · rw [if_pos hroom, andThen_of_ok honestAt_flush.healthy, contents_hold, contents_flush]
      exact ⟨rfl, [], by rw [hold, buf_flush]⟩
    · rw [if_neg hroom, andThen_of_ok honestAt_hold.healthy, contents_hold, contents_hold,
        List.append_nil]
      exact ⟨rfl, w.buf, by simp only [hold, List.append_nil]⟩

/-- What fills the whole buffer is sent past it, when nothing is held back any more. -/
theorem writeAll_of_le (hl : cap ≤ l.length) (hcap : 0 < cap) :
    (writeAll cap l .healthy w).2.contents = w.contents ++ l := by
  have hfits : ¬ l.length < cap - w.buf.length := by omega
  unfold writeAll
  rw [if_neg hfits, if_pos hl]
  have hsend : ∀ v : BufWriter α, v.buf = [] →
      (send l .healthy v).2.contents = v.contents ++ l := by
    intro v hv
    simp only [contents, send, Disk.healthy, hv, List.append_nil]
  by_cases hroom : cap - w.buf.length < l.length
  · rw [if_pos hroom, andThen_of_ok honestAt_flush.healthy, hsend _ buf_flush, contents_flush]
  · have hbuf : w.buf = [] := List.length_eq_zero_iff.mp (by omega)
    rw [if_neg hroom, andThen_of_ok honestAt_hold.healthy, hsend, contents_hold,
      List.append_nil]
    simp only [hold, hbuf, List.append_nil]

theorem contents_writeAll (hcap : 0 < cap) :
    (writeAll cap l .healthy w).2.contents = w.contents ++ l := by
  by_cases hl : cap ≤ l.length
  · exact writeAll_of_le hl hcap
  · exact (writeAll_of_lt (Nat.lt_of_not_le hl)).1

/-- **Nothing is lost** on a disk that never fails. -/
theorem contents_writeChunks (hcap : 0 < cap) (ls : List (List α)) :
    (writeChunks cap ls .healthy w).2.contents = w.contents ++ ls.flatten := by
  induction ls generalizing w with
  | nil => exact contents_hold _
  | cons l ls ih =>
    rw [writeChunks, andThen_of_ok honestAt_writeAll.healthy, ih, contents_writeAll hcap,
      List.append_assoc, List.flatten_cons]

/-- **The last piece is held back**, if it is not empty and smaller than the buffer. -/
theorem tail_writeChunks {ls : List (List α)} (h : ls.getLast? = some l) (hne : l ≠ [])
    (hl : l.length < cap) : (writeChunks cap ls .healthy w).2.buf ≠ [] := by
  induction ls generalizing w with
  | nil => cases h
  | cons l' ls ih =>
    rw [writeChunks, andThen_of_ok honestAt_writeAll.healthy]
    cases ls with
    | nil =>
      obtain rfl : l' = l := by simpa using h
      obtain ⟨front, hfront⟩ := (writeAll_of_lt (w := w) hl).2
      simp only [writeChunks, hold, List.append_nil, hfront]
      exact List.append_ne_nil_of_right_ne_nil front hne
    | cons l₂ ls => exact ih h

/-- Pieces that together are smaller than the room there is are all held back. -/
theorem writeChunks_of_lt {ls : List (List α)} (d : Disk)
    (h : w.buf.length + ls.flatten.length < cap) :
    writeChunks cap ls d w = (true, { w with buf := w.buf ++ ls.flatten }) := by
  induction ls generalizing w with
  | nil => rfl
  | cons l ls ih =>
    rw [List.flatten_cons, List.length_append] at h
    have hfits : l.length < cap - w.buf.length := by omega
    have hput : writeAll cap l d w = hold l d w := if_pos hfits
    have hrest := ih (w := { w with buf := w.buf ++ l }) (by
      rw [List.length_append]
      omega)
    simp only [writeChunks, andThen, hput, hold, hrest, List.flatten_cons, List.append_assoc]

end Contents

/-! ## The last flush -/

section Flush

variable {w : BufWriter α} {d : Disk}

/-- A flush of something is one send. -/
theorem flush_of_written (hne : w.buf ≠ []) (hd : d w.sends = none) :
    flush d w = (true, ⟨[], w.contents, w.sends + 1⟩) := by
  simp only [flush, List.isEmpty_iff, hne, if_false, hd, contents]

/-- **A flush that fails leaves the file short.** -/
theorem flush_of_failed (hne : w.buf ≠ []) (hd : d w.sends ≠ none) :
    (flush d w).1 = false ∧ (flush d w).2.sends = w.sends + 1 ∧
      (flush d w).2.written <+: w.contents ∧ (flush d w).2.written ≠ w.contents := by
  obtain ⟨n, hn⟩ := Option.ne_none_iff_exists'.mp hd
  have hpos := List.length_pos_iff.mpr hne
  simp only [flush, List.isEmpty_iff, hne, if_false, hn, contents]
  refine ⟨trivial, trivial, (List.prefix_append_right_inj _).mpr (List.take_prefix _ _), ?_⟩
  intro he
  have hlen := congrArg List.length (List.append_cancel_left he)
  rw [List.length_take, partOf] at hlen
  omega

end Flush

end BufWriter
