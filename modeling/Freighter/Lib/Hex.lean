import Mathlib.Data.Vector.Basic

/-!
# Hexadecimal text of byte strings

* `encode`, `decode`: two lowercase digits a byte; decoding also accepts uppercase digits.
* **`decode_encode`**, `encode_injective`, `length_encode`.
-/

namespace Hex

def digits : List Char := "0123456789abcdef".toList

/-- The digit of `n < 16`. -/
def digit (n : ℕ) : Char := digits.getD n '0'

/-- The value of a digit of either case. -/
def value (c : Char) : Option ℕ := digits.idxOf? c.toLower

def encode : List UInt8 → List Char
  | [] => []
  | b :: bs => digit (b.toNat / 16) :: digit (b.toNat % 16) :: encode bs

def decode : List Char → Option (List UInt8)
  | [] => some []
  | [_] => none
  | hi :: lo :: cs => do
    let h ← value hi
    let l ← value lo
    let bs ← decode cs
    pure (UInt8.ofNat (16 * h + l) :: bs)

/-- Decoding of exactly `n` bytes. -/
def decodeN (n : ℕ) (cs : List Char) : Option (List.Vector UInt8 n) := do
  let bs ← decode cs
  if h : bs.length = n then pure ⟨bs, h⟩ else none

theorem value_digit : ∀ n < 16, value (digit n) = some n := by decide

@[simp] theorem length_encode (bs : List UInt8) : (encode bs).length = 2 * bs.length := by
  induction bs with
  | nil => rfl
  | cons b bs ih => simp only [encode, List.length_cons, ih]; omega

/-- **Decoding undoes encoding.** -/
@[simp] theorem decode_encode (bs : List UInt8) : decode (encode bs) = some bs := by
  induction bs with
  | nil => rfl
  | cons b bs ih =>
    have hb : b.toNat < 256 := b.toNat_lt
    have he : 16 * (b.toNat / 16) + b.toNat % 16 = b.toNat := by omega
    simp only [encode, decode, value_digit _ (show b.toNat / 16 < 16 by omega),
      value_digit _ (show b.toNat % 16 < 16 by omega), ih, Option.bind_eq_bind, Option.bind_some,
      he, UInt8.ofNat_toNat, Option.pure_def]

theorem encode_injective : Function.Injective encode := fun as bs h => by
  have := congrArg decode h
  simpa using this

@[simp] theorem decodeN_encode {n : ℕ} (v : List.Vector UInt8 n) :
    decodeN n (encode v.toList) = some v := by
  have hv : v.toList.length = n := v.toList_length
  simp only [decodeN, decode_encode, Option.bind_eq_bind, Option.bind_some, dif_pos hv]
  rfl

end Hex
