import Mathlib.Data.Vector.Basic

/-!
# URL-safe base64 without padding

* `encode`: three bytes as four symbols; one or two bytes left over as two or three symbols.
* `decode`: no padding is accepted, and the bits that a last short group leaves over must be zero.
* `encodedLen`, `decodeN`: decoding of exactly `n` bytes, for which the text must have the length
  that `n` bytes encode to.
* **`decode_encode`**, **`decodeN_encode`**: decoding undoes encoding.
* **`encode_of_decode`**, **`decodeN_eq_some_iff`**: each accepted text is the encoding of what it
  decodes to.
* `Engine`: what the documentation of an engine promises.
-/

namespace Base64

def alphabet : List Char :=
  "ABCDEFGHIJKLMNOPQRSTUVWXYZabcdefghijklmnopqrstuvwxyz0123456789-_".toList

/-- The symbol of `n < 64`. -/
def symbol (n : ℕ) : Char := alphabet.getD n 'A'

def value (c : Char) : Option ℕ := alphabet.idxOf? c

def encode : List UInt8 → List Char
  | a :: b :: c :: rest =>
    symbol (a.toNat / 4) :: symbol (a.toNat % 4 * 16 + b.toNat / 16) ::
      symbol (b.toNat % 16 * 4 + c.toNat / 64) :: symbol (c.toNat % 64) :: encode rest
  | [a, b] =>
    [symbol (a.toNat / 4), symbol (a.toNat % 4 * 16 + b.toNat / 16), symbol (b.toNat % 16 * 4)]
  | [a] => [symbol (a.toNat / 4), symbol (a.toNat % 4 * 16)]
  | [] => []

def decode : List Char → Option (List UInt8)
  | c₀ :: c₁ :: c₂ :: c₃ :: rest => do
    let x₀ ← value c₀
    let x₁ ← value c₁
    let x₂ ← value c₂
    let x₃ ← value c₃
    let bs ← decode rest
    pure (UInt8.ofNat (x₀ * 4 + x₁ / 16) :: UInt8.ofNat (x₁ % 16 * 16 + x₂ / 4) ::
      UInt8.ofNat (x₂ % 4 * 64 + x₃) :: bs)
  | [c₀, c₁, c₂] => do
    let x₀ ← value c₀
    let x₁ ← value c₁
    let x₂ ← value c₂
    if x₂ % 4 = 0 then
      pure [UInt8.ofNat (x₀ * 4 + x₁ / 16), UInt8.ofNat (x₁ % 16 * 16 + x₂ / 4)]
    else none
  | [c₀, c₁] => do
    let x₀ ← value c₀
    let x₁ ← value c₁
    if x₁ % 16 = 0 then pure [UInt8.ofNat (x₀ * 4 + x₁ / 16)] else none
  | [_] => none
  | [] => some []

/-- The number of symbols of `n` bytes. -/
def encodedLen (n : ℕ) : ℕ := n / 3 * 4 + (if n % 3 = 0 then 0 else n % 3 + 1)

def decodeN (n : ℕ) (s : String) : Option (List.Vector UInt8 n) :=
  if s.utf8ByteSize = encodedLen n then do
    let bs ← decode s.toList
    if h : bs.length = n then pure ⟨bs, h⟩ else none
  else none

theorem value_symbol : ∀ n < 64, value (symbol n) = some n := by decide +kernel

theorem symbol_mem (n : ℕ) : symbol n ∈ alphabet := by
  unfold symbol
  rw [List.getD_eq_getElem?_getD]
  cases hn : alphabet[n]? with
  | none => exact List.mem_cons_self
  | some c => exact List.mem_of_getElem? hn

theorem utf8Size_of_mem (c : Char) (hc : c ∈ alphabet) : c.utf8Size = 1 := by
  have hall : (alphabet.all fun c => c.utf8Size == 1) = true := by decide +kernel
  exact beq_iff_eq.mp (List.all_eq_true.mp hall c hc)

/-- Text of one-byte characters is as many bytes long. -/
theorem utf8ByteSize_ofList {cs : List Char} (h : ∀ c ∈ cs, c.utf8Size = 1) :
    (String.ofList cs).utf8ByteSize = cs.length := by
  induction cs with
  | nil => rfl
  | cons c cs ih =>
    rw [String.ofList_cons, String.utf8ByteSize_append, String.utf8ByteSize_singleton,
      h c List.mem_cons_self, ih fun c' hc' => h c' (List.mem_cons_of_mem _ hc'),
      List.length_cons, add_comm]

theorem encode_subset (bs : List UInt8) : encode bs ⊆ alphabet := by
  induction bs using encode.induct with
  | case1 a b c rest ih => simp [encode, symbol_mem, ih]
  | case2 a b => simp [encode, symbol_mem]
  | case3 a => simp [encode, symbol_mem]
  | case4 => exact List.nil_subset _

theorem encodedLen_add_three (n : ℕ) : encodedLen (n + 3) = encodedLen n + 4 := by
  unfold encodedLen
  rw [Nat.add_div_right n (by decide), Nat.add_mod_right]
  omega

@[simp] theorem length_encode (bs : List UInt8) : (encode bs).length = encodedLen bs.length := by
  induction bs using encode.induct with
  | case1 a b c rest ih =>
    exact (congrArg (· + 4) ih).trans (encodedLen_add_three _).symm
  | case2 a b => simp [encode, encodedLen]
  | case3 a => simp [encode, encodedLen]
  | case4 => rfl

theorem first_byte (a b : UInt8) :
    a.toNat / 4 * 4 + (a.toNat % 4 * 16 + b.toNat / 16) / 16 = a.toNat := by
  have hb : b.toNat < 256 := b.toNat_lt
  omega

/-- **Decoding undoes encoding.** -/
@[simp] theorem decode_encode (bs : List UInt8) : decode (encode bs) = some bs := by
  induction bs using encode.induct with
  | case1 a b c rest ih =>
    have ha : a.toNat < 256 := a.toNat_lt
    have hb : b.toNat < 256 := b.toNat_lt
    have hc : c.toNat < 256 := c.toNat_lt
    have h2 : (a.toNat % 4 * 16 + b.toNat / 16) % 16 * 16 + (b.toNat % 16 * 4 + c.toNat / 64) / 4 =
      b.toNat := by omega
    have h3 : (b.toNat % 16 * 4 + c.toNat / 64) % 4 * 64 + c.toNat % 64 = c.toNat := by omega
    simp only [encode, decode, value_symbol (a.toNat / 4) (by omega),
      value_symbol (a.toNat % 4 * 16 + b.toNat / 16) (by omega),
      value_symbol (b.toNat % 16 * 4 + c.toNat / 64) (by omega),
      value_symbol (c.toNat % 64) (by omega), ih, Option.bind_eq_bind, Option.bind_some,
      Option.pure_def, first_byte, h2, h3, UInt8.ofNat_toNat]
  | case2 a b =>
    have ha : a.toNat < 256 := a.toNat_lt
    have hb : b.toNat < 256 := b.toNat_lt
    have h2 : (a.toNat % 4 * 16 + b.toNat / 16) % 16 * 16 + b.toNat % 16 * 4 / 4 = b.toNat := by
      omega
    simp only [encode, decode, value_symbol (a.toNat / 4) (by omega),
      value_symbol (a.toNat % 4 * 16 + b.toNat / 16) (by omega),
      value_symbol (b.toNat % 16 * 4) (by omega), Option.bind_eq_bind, Option.bind_some,
      Option.pure_def, first_byte, h2, UInt8.ofNat_toNat, show b.toNat % 16 * 4 % 4 = 0 by omega,
      if_true]
  | case3 a =>
    have ha : a.toNat < 256 := a.toNat_lt
    have h1 : a.toNat / 4 * 4 + a.toNat % 4 * 16 / 16 = a.toNat := by omega
    simp only [encode, decode, value_symbol (a.toNat / 4) (by omega),
      value_symbol (a.toNat % 4 * 16) (by omega), Option.bind_eq_bind, Option.bind_some,
      Option.pure_def, h1, UInt8.ofNat_toNat, show a.toNat % 4 * 16 % 16 = 0 by omega, if_true]
  | case4 => rfl

/-! ## What is decoded -/

theorem encode_injective : Function.Injective encode := fun bs bs' h =>
  Option.some.inj ((decode_encode bs).symm.trans (h ▸ decode_encode bs'))

/-- A symbol is that of its value. -/
theorem symbol_of_value {c : Char} {n : ℕ} (h : value c = some n) : n < 64 ∧ symbol n = c := by
  obtain ⟨hn, hc, -⟩ := List.idxOf?_eq_some_iff.mp h
  refine ⟨hn, ?_⟩
  rw [symbol, List.getD_eq_getElem?_getD, List.getElem?_eq_getElem hn, Option.getD_some, hc]

theorem toNat_ofNat {n : ℕ} (h : n < 256) : (UInt8.ofNat n).toNat = n :=
  UInt8.toNat_ofNat_of_lt' h

theorem first_sextet {x₀ x₁ : ℕ} (h₁ : x₁ < 64) : (x₀ * 4 + x₁ / 16) / 4 = x₀ := by omega

theorem second_sextet {x₀ x₁ x₂ : ℕ} (h₁ : x₁ < 64) (h₂ : x₂ < 64) :
    (x₀ * 4 + x₁ / 16) % 4 * 16 + (x₁ % 16 * 16 + x₂ / 4) / 16 = x₁ := by omega

/-- **What is decoded encodes to the text**, as bits that are left over are refused. -/
theorem encode_of_decode {cs : List Char} {bs : List UInt8} (h : decode cs = some bs) :
    encode bs = cs := by
  induction cs using decode.induct generalizing bs with
  | case1 c₀ c₁ c₂ c₃ rest ih =>
    simp only [decode, Option.bind_eq_bind, Option.bind_eq_some_iff, Option.pure_def,
      Option.some.injEq] at h
    obtain ⟨x₀, h₀, x₁, h₁, x₂, h₂, x₃, h₃, bs', hrest, rfl⟩ := h
    obtain ⟨hx₀, rfl⟩ := symbol_of_value h₀
    obtain ⟨hx₁, rfl⟩ := symbol_of_value h₁
    obtain ⟨hx₂, rfl⟩ := symbol_of_value h₂
    obtain ⟨hx₃, rfl⟩ := symbol_of_value h₃
    have e₂ : (x₁ % 16 * 16 + x₂ / 4) % 16 * 4 + (x₂ % 4 * 64 + x₃) / 64 = x₂ := by omega
    have e₃ : (x₂ % 4 * 64 + x₃) % 64 = x₃ := by omega
    rw [encode, ih hrest, toNat_ofNat (by omega), toNat_ofNat (by omega), toNat_ofNat (by omega),
      first_sextet hx₁, second_sextet hx₁ hx₂, e₂, e₃]
  | case2 c₀ c₁ c₂ =>
    simp only [decode, Option.bind_eq_bind, Option.bind_eq_some_iff, Option.pure_def] at h
    obtain ⟨x₀, h₀, x₁, h₁, x₂, h₂, h⟩ := h
    obtain ⟨hx₀, rfl⟩ := symbol_of_value h₀
    obtain ⟨hx₁, rfl⟩ := symbol_of_value h₁
    obtain ⟨hx₂, rfl⟩ := symbol_of_value h₂
    split_ifs at h with hbits
    cases h
    have e₂ : (x₁ % 16 * 16 + x₂ / 4) % 16 * 4 = x₂ := by omega
    rw [encode, toNat_ofNat (by omega), toNat_ofNat (by omega), first_sextet hx₁,
      second_sextet hx₁ hx₂, e₂]
  | case3 c₀ c₁ =>
    simp only [decode, Option.bind_eq_bind, Option.bind_eq_some_iff, Option.pure_def] at h
    obtain ⟨x₀, h₀, x₁, h₁, h⟩ := h
    obtain ⟨hx₀, rfl⟩ := symbol_of_value h₀
    obtain ⟨hx₁, rfl⟩ := symbol_of_value h₁
    split_ifs at h with hbits
    cases h
    have e₁ : (x₀ * 4 + x₁ / 16) % 4 * 16 = x₁ := by omega
    rw [encode, toNat_ofNat (by omega), first_sextet hx₁, e₁]
  | case4 c => cases h
  | case5 =>
    cases h
    rfl

theorem utf8ByteSize_encode (bs : List UInt8) :
    (String.ofList (encode bs)).utf8ByteSize = encodedLen bs.length := by
  rw [utf8ByteSize_ofList fun c hc => utf8Size_of_mem c (encode_subset bs hc), length_encode]

/-- No two numbers of bytes encode to one length. -/
theorem encodedLen_injective : Function.Injective encodedLen := by
  intro m n h
  unfold encodedLen at h
  split_ifs at h <;> omega

/-- **Decoding of exactly `n` bytes undoes their encoding.** -/
theorem decodeN_encode {n : ℕ} (v : List.Vector UInt8 n) :
    decodeN n (String.ofList (encode v.toList)) = some v := by
  have hv : v.toList.length = n := v.toList_length
  have hsize : (String.ofList (encode v.toList)).utf8ByteSize = encodedLen n := by
    rw [utf8ByteSize_encode, hv]
  simp only [decodeN, if_pos hsize, String.toList_ofList, decode_encode, Option.bind_eq_bind,
    Option.bind_some, dif_pos hv]
  rfl

/-- **Decoding is a bijection onto the texts that it accepts.** -/
theorem decodeN_eq_some_iff {n : ℕ} {s : String} {v : List.Vector UInt8 n} :
    decodeN n s = some v ↔ String.ofList (encode v.toList) = s := by
  constructor
  · intro h
    unfold decodeN at h
    split_ifs at h
    obtain ⟨bs, hbs, h⟩ := Option.bind_eq_some_iff.mp h
    split_ifs at h
    cases h
    rw [← String.toList_inj, String.toList_ofList]
    exact encode_of_decode hbs
  · rintro rfl
    exact decodeN_encode v

/-! ## The engine -/

/-- **The engine `URL_SAFE_NO_PAD`** as it is documented. `decode_slice_unchecked` writes the bytes
to the front of a buffer and answers with their number, refuses what does not decode, and panics
(`none`) when the buffer is too small. -/
structure Engine where
  encodeString : List UInt8 → String → String
  decodeSliceUnchecked {n : ℕ} : String → List.Vector UInt8 n →
    Option (Except Unit (ℕ × List.Vector UInt8 n))
  encodeString_eq : ∀ bytes out, encodeString bytes out = out ++ String.ofList (encode bytes)
  decode_accepted : ∀ {n : ℕ} (s : String) (buf : List.Vector UInt8 n) (bytes : List UInt8),
    decode s.toList = some bytes → bytes.length ≤ n → ∃ buf' : List.Vector UInt8 n,
      decodeSliceUnchecked s buf = some (.ok (bytes.length, buf')) ∧
        buf'.toList = bytes ++ buf.toList.drop bytes.length
  decode_refused : ∀ {n : ℕ} (s : String) (buf : List.Vector UInt8 n),
    decode s.toList = none → s.utf8ByteSize ≤ encodedLen n →
      decodeSliceUnchecked s buf = some (.error ())

/-- An engine that decodes before it looks at the buffer. -/
def Engine.documented : Engine where
  encodeString bytes out := out ++ String.ofList (encode bytes)
  decodeSliceUnchecked {n} s buf :=
    match decode s.toList with
    | none => some (.error ())
    | some bytes =>
      if h : bytes.length ≤ n then
        some (.ok (bytes.length, ⟨bytes ++ buf.toList.drop bytes.length, by
          rw [List.length_append, List.length_drop, buf.toList_length]
          omega⟩))
      else none
  encodeString_eq _ _ := rfl
  decode_accepted s buf bytes h hn := by
    simp only [h, dif_pos hn]
    exact ⟨_, rfl, rfl⟩
  decode_refused s buf h _ := by simp only [h]

end Base64
