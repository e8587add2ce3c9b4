import Freighter.Auth.Model
import Freighter.Types.Index

/-!
# The body of a publish request

The JSON and the tarball, each behind its length in four bytes, little endian. An index out of range
and a failed `unwrap` are panics: `none`.

* `splitTo`, `u32FromLeBytes`, `unframe`: how `api::publish` takes the body apart;
* `frame`: the parts put together; `clientBody`, `generateCratePayload`: how the client and the
  tests do it; **`unframe_frame`**.
* **`framing`**: the server accepts exactly the framed bodies, and nothing shorter.
-/

namespace Freighter

/-- Why a handler answers with an error. -/
inductive ApiError where
  | status (code : ℕ) (text : String)
  | auth (e : AuthError)
  | index (e : IndexError)
deriving DecidableEq

namespace Server

def badRequest (text : String) : ApiError := .status 400 text

/-! ## The server -/

/-- `Bytes::split_to`: the front and the rest. -/
def splitTo (n : ℕ) (body : Bytes) : Option (Bytes × Bytes) :=
  if n ≤ body.length then some (body.take n, body.drop n) else none

/-- `u32::from_le_bytes` of a slice that is converted to an array. -/
def u32FromLeBytes : Bytes → Option ℕ
  | [a, b, c, d] => some (a.toNat + 256 * (b.toNat + 256 * (c.toNat + 256 * d.toNat)))
  | _ => none

/-- The JSON and the tarball of a body. -/
def unframe (body : Bytes) : Option (Except ApiError (Bytes × Bytes)) :=
  if body.length ≤ 4 then some (.error (badRequest "Missing body"))
  else do
    let (jsonLenBytes, body) ← splitTo 4 body
    let jsonLen ← u32FromLeBytes jsonLenBytes
    if body.length < jsonLen then some (.error (badRequest ""))
    else
      let (jsonBytes, body) ← splitTo jsonLen body
      if body.length ≤ 4 then some (.error (badRequest ""))
      else
        let (crateLenBytes, body) ← splitTo 4 body
        let crateLen ← u32FromLeBytes crateLenBytes
        if body.length < crateLen then some (.error (badRequest "Crate data truncated"))
        else
          let (crateBytes, _) ← splitTo crateLen body
          some (.ok (jsonBytes, crateBytes))

/-! ## The client -/

/-- `u32::to_le_bytes`. -/
def u32ToLeBytes (n : ℕ) : Bytes :=
  [UInt8.ofNat n, UInt8.ofNat (n / 256), UInt8.ofNat (n / 256 ^ 2), UInt8.ofNat (n / 256 ^ 3)]

/-- The parts behind their lengths, which have to fit. -/
def frame (serialized tarball : Bytes) : Option Bytes :=
  if serialized.length < 2 ^ 32 ∧ tarball.length < 2 ^ 32 then
    some (u32ToLeBytes serialized.length ++ serialized ++ u32ToLeBytes tarball.length ++ tarball)
  else none

/-- `u32::try_from`. -/
def u32TryFrom (n : ℕ) : Option ℕ := if n < 2 ^ 32 then some n else none

/-- `buf[from..to].copy_from_slice(src)`. -/
def copyFromSlice (start stop : ℕ) (src buf : Bytes) : Option Bytes :=
  if start ≤ stop ∧ stop ≤ buf.length ∧ src.length = stop - start then
    some (buf.take start ++ src ++ buf.drop stop)
  else none

/-- The body that `Client::publish` builds. -/
def clientBody (serialized tarball : Bytes) : Option Bytes := do
  let tarballLenOff := 4 + serialized.length
  let tarballOff := 4 + tarballLenOff
  let buf := List.replicate (tarballOff + tarball.length) 0
  let buf ← copyFromSlice 0 4 (u32ToLeBytes (← u32TryFrom serialized.length)) buf
  let buf ← copyFromSlice 4 tarballLenOff serialized buf
  let buf ← copyFromSlice tarballLenOff tarballOff (u32ToLeBytes (← u32TryFrom tarball.length)) buf
  copyFromSlice tarballOff buf.length tarball buf

/-- `generate_crate_payload`, whose `as u32` wraps as `u32ToLeBytes` does. -/
def generateCratePayload (json tarball : Bytes) : Bytes :=
  u32ToLeBytes json.length ++ json ++ u32ToLeBytes tarball.length ++ tarball

@[simp] theorem length_u32ToLeBytes (n : ℕ) : (u32ToLeBytes n).length = 4 := rfl

theorem frame_eq {serialized tarball : Bytes} (hs : serialized.length < 2 ^ 32)
    (ht : tarball.length < 2 ^ 32) :
    frame serialized tarball = some (generateCratePayload serialized tarball) :=
  if_pos ⟨hs, ht⟩

/-- A buffer that is filled up to `start`, with `n` bytes more to come. -/
theorem copyFromSlice_replicate (done src : Bytes) (n : ℕ) :
    copyFromSlice done.length (done.length + src.length) src
        (done ++ List.replicate (src.length + n) 0) =
      some (done ++ src ++ List.replicate n 0) := by
  unfold copyFromSlice
  rw [if_pos (by simp only [List.length_append, List.length_replicate]; omega), List.take_left,
    List.drop_append, List.drop_of_length_le (by omega), List.drop_replicate, List.nil_append]
  congr 3
  omega

/-- **The offsets of the client fit**: its buffer is filled part by part. -/
theorem clientBody_eq_frame (serialized tarball : Bytes) :
    clientBody serialized tarball = frame serialized tarball := by
  unfold clientBody frame u32TryFrom
  by_cases hs : serialized.length < 2 ^ 32
  · by_cases ht : tarball.length < 2 ^ 32
    · have h1 := copyFromSlice_replicate [] (u32ToLeBytes serialized.length)
        (serialized.length + (4 + tarball.length))
      have h2 := copyFromSlice_replicate (u32ToLeBytes serialized.length) serialized
        (4 + tarball.length)
      have h3 := copyFromSlice_replicate (u32ToLeBytes serialized.length ++ serialized)
        (u32ToLeBytes tarball.length) tarball.length
      have h4 := copyFromSlice_replicate
        (u32ToLeBytes serialized.length ++ serialized ++ u32ToLeBytes tarball.length) tarball 0
      simp only [List.length_nil, List.nil_append, length_u32ToLeBytes, zero_add,
        List.length_append, Nat.add_zero, List.replicate_zero, List.append_nil] at h1 h2 h3 h4
      have hlen : 4 + (4 + serialized.length) + tarball.length =
          4 + (serialized.length + (4 + tarball.length)) := by omega
      have hoff : 4 + (4 + serialized.length) = 4 + serialized.length + 4 := by omega
      simp only [hs, ht, and_self, if_true, Option.bind_eq_bind, Option.bind_some, hlen, h1, h2]
      rw [hoff, h3]
      simp only [Option.bind_some, List.length_append, length_u32ToLeBytes, List.length_replicate]
      exact h4
    · simp only [hs, ht, and_false, if_true, if_false, Option.bind_eq_bind,
        Option.bind_none, Option.bind_fun_none]
  · simp only [hs, false_and, if_false, Option.bind_eq_bind, Option.bind_none]

theorem u32FromLeBytes_u32ToLeBytes {n : ℕ} (h : n < 2 ^ 32) :
    u32FromLeBytes (u32ToLeBytes n) = some n := by
  simp only [u32ToLeBytes, u32FromLeBytes, UInt8.toNat_ofNat', Option.some.injEq]
  omega

/-- Four bytes are the encoding of a number. -/
theorem exists_u32ToLeBytes {l : Bytes} (h : l.length = 4) : ∃ n < 2 ^ 32, l = u32ToLeBytes n := by
  match l, h with
  | [a, b, c, d], _ =>
    have ha := a.toNat_lt
    have hb := b.toNat_lt
    have hc := c.toNat_lt
    have hd := d.toNat_lt
    refine ⟨a.toNat + 256 * (b.toNat + 256 * (c.toNat + 256 * d.toNat)), by omega, ?_⟩
    simp only [u32ToLeBytes, List.cons.injEq, and_true]
    refine ⟨?_, ?_, ?_, ?_⟩ <;>
      · rw [← UInt8.toNat_inj, UInt8.toNat_ofNat']
        omega

theorem splitTo_append (front rest : Bytes) :
    splitTo front.length (front ++ rest) = some (front, rest) := by
  unfold splitTo
  rw [if_pos (by simp), List.take_left, List.drop_left]

theorem splitTo_four (n : ℕ) (rest : Bytes) :
    splitTo 4 (u32ToLeBytes n ++ rest) = some (u32ToLeBytes n, rest) :=
  splitTo_append (u32ToLeBytes n) rest

/-- More than four bytes are a number and something after it. -/
theorem exists_length_prefix {body : Bytes} (h : ¬ body.length ≤ 4) :
    ∃ n < 2 ^ 32, ∃ rest, rest ≠ [] ∧ body = u32ToLeBytes n ++ rest := by
  have hlen : (body.take 4).length = 4 := by rw [List.length_take]; omega
  obtain ⟨n, hn, htake⟩ := exists_u32ToLeBytes hlen
  refine ⟨n, hn, body.drop 4, fun he => h (List.drop_eq_nil_iff.mp he), ?_⟩
  rw [← htake, List.take_append_drop]

/-! ## What the server accepts -/

/-- **A framed body is taken apart**, whatever follows it, unless nothing follows the lengths. -/
theorem unframe_append {json tarball rest : Bytes} (hj : json.length < 2 ^ 32)
    (ht : tarball.length < 2 ^ 32) (hpos : 1 ≤ tarball.length + rest.length) :
    unframe (generateCratePayload json tarball ++ rest) = some (.ok (json, tarball)) := by
  unfold generateCratePayload unframe
  simp only [List.append_assoc]
  rw [if_neg (by simp only [List.length_append, length_u32ToLeBytes]; omega), splitTo_four]
  simp only [Option.bind_eq_bind, Option.bind_some, u32FromLeBytes_u32ToLeBytes hj]
  rw [if_neg (by simp only [List.length_append]; omega), splitTo_append]
  simp only [Option.bind_some]
  rw [if_neg (by simp only [List.length_append, length_u32ToLeBytes]; omega), splitTo_four]
  simp only [Option.bind_some, u32FromLeBytes_u32ToLeBytes ht]
  rw [if_neg (by simp only [List.length_append]; omega), splitTo_append]
  rfl

/-- **Every other body is refused**, and none makes the server panic. -/
theorem unframe_cases (body : Bytes) :
    (∃ text, unframe body = some (.error (badRequest text))) ∨
      ∃ json tarball rest, json.length < 2 ^ 32 ∧ tarball.length < 2 ^ 32 ∧
        1 ≤ tarball.length + rest.length ∧
        body = generateCratePayload json tarball ++ rest := by
  by_cases h1 : body.length ≤ 4
  · exact Or.inl ⟨_, if_pos h1⟩
  obtain ⟨jsonLen, hj, rest1, -, rfl⟩ := exists_length_prefix h1
  by_cases h2 : rest1.length < jsonLen
  · refine Or.inl ⟨"", ?_⟩
    rw [unframe, if_neg h1, splitTo_four]
    simp only [Option.bind_eq_bind, Option.bind_some, u32FromLeBytes_u32ToLeBytes hj, if_pos h2]
  obtain ⟨json, rest2, rfl, hjson⟩ : ∃ json rest2, rest1 = json ++ rest2 ∧ json.length = jsonLen :=
    ⟨rest1.take jsonLen, rest1.drop jsonLen, (List.take_append_drop _ _).symm,
      by rw [List.length_take]; omega⟩
  subst hjson
  by_cases h3 : rest2.length ≤ 4
  · refine Or.inl ⟨"", ?_⟩
    rw [unframe, if_neg h1, splitTo_four]
    simp only [Option.bind_eq_bind, Option.bind_some, u32FromLeBytes_u32ToLeBytes hj, if_neg h2,
      splitTo_append, if_pos h3]
  obtain ⟨crateLen, ht, rest3, hne, rfl⟩ := exists_length_prefix h3
  by_cases h4 : rest3.length < crateLen
  · refine Or.inl ⟨"Crate data truncated", ?_⟩
    rw [unframe, if_neg h1, splitTo_four]
    simp only [Option.bind_eq_bind, Option.bind_some, u32FromLeBytes_u32ToLeBytes hj, if_neg h2,
      splitTo_append, if_neg h3, splitTo_four, u32FromLeBytes_u32ToLeBytes ht, if_pos h4]
  obtain ⟨tarball, rest, rfl, htarball⟩ : ∃ tarball rest, rest3 = tarball ++ rest ∧
      tarball.length = crateLen :=
    ⟨rest3.take crateLen, rest3.drop crateLen, (List.take_append_drop _ _).symm,
      by rw [List.length_take]; omega⟩
  subst htarball
  refine Or.inr ⟨json, tarball, rest, hj, ht, ?_, ?_⟩
  · have := List.length_pos_iff.mpr hne
    rwa [List.length_append] at this
  · simp only [generateCratePayload, List.append_assoc]

theorem unframe_eq_ok {body json tarball : Bytes} :
    unframe body = some (.ok (json, tarball)) ↔ json.length < 2 ^ 32 ∧ tarball.length < 2 ^ 32 ∧
      ∃ rest, body = generateCratePayload json tarball ++ rest ∧
        1 ≤ tarball.length + rest.length := by
  constructor
  · intro h
    rcases unframe_cases body with ⟨text, herr⟩ | ⟨j, t, rest, hj, ht, hpos, rfl⟩
    · cases h.symm.trans herr
    · cases h.symm.trans (unframe_append hj ht hpos)
      exact ⟨hj, ht, rest, rfl, hpos⟩
  · rintro ⟨hj, ht, rest, rfl, hpos⟩
    exact unframe_append hj ht hpos

/-- **What the client frames is what the server takes apart**, unless the tarball is empty. -/
theorem unframe_frame {serialized tarball body : Bytes} (h : frame serialized tarball = some body)
    (hne : tarball ≠ []) : unframe body = some (.ok (serialized, tarball)) := by
  unfold frame at h
  split_ifs at h with hlen
  cases h
  have hpos := List.length_pos_iff.mpr hne
  refine unframe_eq_ok.mpr ⟨hlen.1, hlen.2, [], ?_, hpos⟩
  rw [List.append_nil, generateCratePayload]

/-- A body that ends before its tarball does is refused. -/
theorem unframe_prefix {json tarball p : Bytes} (hj : json.length < 2 ^ 32)
    (ht : tarball.length < 2 ^ 32) (hne : tarball ≠ [])
    (hp : p <+: generateCratePayload json tarball)
    (hproper : p ≠ generateCratePayload json tarball) :
    ∃ text, unframe p = some (.error (badRequest text)) := by
  rcases unframe_cases p with herr | ⟨j, t, rest, hj', ht', -, rfl⟩
  · exact herr
  · -- the whole body has two readings, which agree
    obtain ⟨q, hq⟩ := hp
    have hwhole : unframe (generateCratePayload json tarball) = some (.ok (json, tarball)) :=
      unframe_eq_ok.mpr ⟨hj, ht, [], (List.append_nil _).symm, List.length_pos_iff.mpr hne⟩
    have hpos : 1 ≤ t.length + (rest ++ q).length := by
      by_contra hzero
      have ht0 : t = [] := List.length_eq_zero_iff.mp (by omega)
      have hr0 : rest ++ q = [] := List.length_eq_zero_iff.mp (by omega)
      have hr : rest = [] := (List.append_eq_nil_iff.mp hr0).1
      have hq0 : q = [] := (List.append_eq_nil_iff.mp hr0).2
      rw [hq0, List.append_nil] at hq
      exact hproper hq
    have hsame := unframe_append hj' ht' hpos
    rw [← List.append_assoc, hq, hwhole] at hsame
    cases hsame
    refine absurd hq fun he => hproper ?_
    have hnil : rest ++ q = [] := by
      rw [List.append_assoc] at he
      exact List.append_right_eq_self.mp he
    rw [(List.append_eq_nil_iff.mp hnil).1, List.append_nil]

/-- **The framing of a publish request.** No body makes the server slice out of range; a body is
accepted, as `(json, tarball)`, iff it is these two behind their lengths, with something after the
second length, and every other is a bad request. What the client builds from a JSON and a tarball
that is not empty is accepted as these, and every proper front of it is a bad request. -/
theorem framing :
    (∀ body, (∃ json tarball, unframe body = some (.ok (json, tarball))) ∨
      ∃ text, unframe body = some (.error (badRequest text))) ∧
    (∀ body json tarball, unframe body = some (.ok (json, tarball)) ↔
      json.length < 2 ^ 32 ∧ tarball.length < 2 ^ 32 ∧
        ∃ rest, body = u32ToLeBytes json.length ++ json ++ u32ToLeBytes tarball.length ++ tarball ++
          rest ∧ 1 ≤ tarball.length + rest.length) ∧
    (∀ serialized tarball, serialized.length < 2 ^ 32 → tarball.length < 2 ^ 32 → tarball ≠ [] →
      ∃ body, clientBody serialized tarball = some body ∧
        unframe body = some (.ok (serialized, tarball)) ∧
        ∀ p, p <+: body → p ≠ body → ∃ text, unframe p = some (.error (badRequest text))) := by
  refine ⟨fun body => ?_, fun body json tarball => unframe_eq_ok,
    fun serialized tarball hs ht hne => ?_⟩
  · rcases unframe_cases body with herr | ⟨json, tarball, rest, hj, ht, hpos, rfl⟩
    · exact Or.inr herr
    · exact Or.inl ⟨json, tarball, unframe_append hj ht hpos⟩
  · have hframe := frame_eq hs ht
    refine ⟨_, (clientBody_eq_frame _ _).trans hframe, unframe_frame hframe hne,
      fun p hp hproper => ?_⟩
    exact unframe_prefix hs ht hne hp hproper

end Server

end Freighter
