import Freighter.Types.Semver
import Mathlib.Data.List.Lex
import Mathlib.Data.Prod.Lex
import Mathlib.Data.String.Basic
import Mathlib.Data.Sum.Order
import Mathlib.Order.WithBot

/-!
# The order of versions

* `identifierKey`, `Version.key`: what `Ord` compares; **`Version.key_injective`**.
* **`precedence`**: the order of `semver`: the numbers, then the pre-release, an absent one last and
  its identifiers one by one, then the build metadata.

The results about the order hold of every linear order of versions.
-/

namespace Freighter

/-- Numbers by their value, then by their length with zeros; before all words. -/
abbrev IdentifierKey := (ℕ ×ₗ List Char ×ₗ ℕ) ⊕ₗ List Char

/-- The digits of a number without the zeros before it. -/
def significant (i : List Char) : List Char := i.dropWhile (· == '0')

def identifierKey (i : List Char) : IdentifierKey :=
  if i.all Char.isDigit then
    Sum.inlₗ (toLex ((significant i).length, toLex (significant i, i.length)))
  else Sum.inrₗ i

/-- A number is its digits after zeros. -/
theorem zeros_append_significant (i : List Char) :
    List.replicate (i.length - (significant i).length) '0' ++ significant i = i := by
  have hsplit : i.takeWhile (· == '0') ++ significant i = i := List.takeWhile_append_dropWhile
  have hzeros : i.takeWhile (· == '0') =
      List.replicate (i.takeWhile (· == '0')).length '0' :=
    List.eq_replicate_iff.mpr ⟨rfl, fun c hc =>
      beq_iff_eq.mp (List.mem_takeWhile_imp (p := fun c => c == '0') hc)⟩
  have hlen := congrArg List.length hsplit
  rw [List.length_append] at hlen
  rw [show i.length - (significant i).length = (i.takeWhile (· == '0')).length by omega,
    ← hzeros, hsplit]

theorem identifierKey_injective : Function.Injective identifierKey := by
  intro i j h
  unfold identifierKey at h
  split_ifs at h
  · have h' := toLex.injective (Sum.inl.inj (toLex.injective h))
    rw [Prod.mk.injEq] at h'
    obtain ⟨hs, hl⟩ := Prod.mk.inj (toLex.injective h'.2)
    rw [← zeros_append_significant i, ← zeros_append_significant j, hs, hl]
  · exact absurd (toLex.injective h) Sum.inl_ne_inr
  · exact absurd (toLex.injective h) Sum.inr_ne_inl
  · exact Sum.inr.inj (toLex.injective h)

/-- The identifiers between the dots. -/
def identifierKeys (text : String) : List IdentifierKey :=
  (text.toList.splitOn '.').map identifierKey

theorem identifierKeys_injective : Function.Injective identifierKeys := by
  intro s t h
  have hsplit := List.map_injective_iff.mpr identifierKey_injective h
  apply String.toList_inj.mp
  calc s.toList = ['.'].intercalate (s.toList.splitOn '.') := (List.intercalate_splitOn '.').symm
    _ = ['.'].intercalate (t.toList.splitOn '.') := by rw [hsplit]
    _ = t.toList := List.intercalate_splitOn '.'

/-- No pre-release is above all. -/
def Prerelease.key (p : Prerelease) : WithTop (List IdentifierKey) :=
  if p.text = "" then ⊤ else ↑(identifierKeys p.text)

theorem Prerelease.key_injective : Function.Injective Prerelease.key := by
  rintro ⟨s, hs⟩ ⟨t, ht⟩ h
  unfold Prerelease.key at h
  congr 1
  split_ifs at h with h1 h2 h2
  · exact h1.trans h2.symm
  · exact absurd h WithTop.top_ne_coe
  · exact absurd h WithTop.coe_ne_top
  · exact identifierKeys_injective (WithTop.coe_injective h)

/-- The fields of a version as `Ord` compares them. -/
def Version.key (v : Version) :
    ℕ ×ₗ ℕ ×ₗ ℕ ×ₗ WithTop (List IdentifierKey) ×ₗ List IdentifierKey :=
  toLex (v.major.toNat, toLex (v.minor.toNat, toLex (v.patch.toNat,
    toLex (v.pre.key, identifierKeys v.build.text))))

theorem Version.key_injective : Function.Injective Version.key := by
  rintro ⟨a, b, c, p, q⟩ ⟨a', b', c', p', q'⟩ h
  simp only [Version.key, toLex_inj, Prod.mk.injEq, UInt64.toNat_inj] at h
  obtain ⟨rfl, rfl, rfl, hp, hq⟩ := h
  obtain rfl := Prerelease.key_injective hp
  obtain rfl : q = q' := by cases q; cases q'; cases identifierKeys_injective hq; rfl
  rfl

/-- **`Ord for Version`**. -/
@[reducible] def precedence : LinearOrder Version :=
  LinearOrder.lift' Version.key Version.key_injective

example : precedence.lt (Version.new 1 0 1) (Version.new 2 0 0) := by decide +kernel

example : precedence.lt ⟨1, 0, 0, ⟨"rc.9", Or.inr (by decide)⟩, BuildMetadata.EMPTY⟩
    ⟨1, 0, 0, ⟨"rc.10", Or.inr (by decide)⟩, BuildMetadata.EMPTY⟩ := by decide +kernel

end Freighter
