import Freighter.Auth.OwnersFile

/-!
# Tokens and hashes as texts

`base64_serde` over the engine `URL_SAFE_NO_PAD`, and the tokens that it encodes.

* `Base64Serde.encode`, `Base64Serde.decode`: `none` is a panic; **`Base64Serde.decode_eq`**: over
  every engine `decode` is the `decodeN` of the provider's model.
* `tokenToStrOn`, `tokenFromStrOn`, with the debug assertions; **`tokenToStrOn_eq`**,
  **`tokenFromStrOn_eq`**: they are the provider's, and no assertion fails.
* **`encoding_bijective`**: the accepted texts are in bijection with the arrays.
-/

namespace Freighter

/-! ## The encoding of arrays -/

/-- The largest size of an object, and so of an array of bytes. -/
def ISIZE_MAX : ℕ := 2 ^ 63 - 1

namespace Base64Serde

/-- `base64::encoded_len` without padding: `None` when it is not a `usize`. -/
def encodedLen (bytesLen : ℕ) : Option ℕ :=
  if Base64.encodedLen bytesLen < 2 ^ 64 then some (Base64.encodedLen bytesLen) else none

variable (E : Base64.Engine) {n : ℕ}

def encode (binary : List.Vector UInt8 n) (out : String) : String :=
  E.encodeString binary.toList out

/-- The buffer is answered whole, however many bytes were written to it. -/
def decode (n : ℕ) (base64 : String) : Option (Option (List.Vector UInt8 n)) :=
  match encodedLen n with
  | none => some none
  | some len =>
    if base64.utf8ByteSize ≠ len then some none
    else
      match E.decodeSliceUnchecked base64 (List.Vector.replicate n 0) with
      | none => none
      | some (.error _) => some none
      | some (.ok (_, buf)) => some (some buf)

/-- What `serialize` hands to the serializer. -/
def serialize (binary : List.Vector UInt8 n) : String := encode E binary ""

variable {E} {s : String} {b : List.Vector UInt8 n} {out : String}

theorem encode_eq (b : List.Vector UInt8 n) (out : String) :
    encode E b out = out ++ String.ofList (Base64.encode b.toList) := E.encodeString_eq _ _

theorem serialize_eq (b : List.Vector UInt8 n) :
    serialize E b = String.ofList (Base64.encode b.toList) := by
  rw [serialize, encode_eq, String.empty_append]

theorem encodedLen_of_le (h : n ≤ ISIZE_MAX) : encodedLen n = some (Base64.encodedLen n) := by
  refine if_pos ?_
  unfold ISIZE_MAX at h
  unfold Base64.encodedLen
  split_ifs <;> omega

/-- A text of the length of `n` bytes decodes to `n` bytes. -/
theorem length_of_decode {bytes : List UInt8} (hsize : s.utf8ByteSize = Base64.encodedLen n)
    (h : Base64.decode s.toList = some bytes) : bytes.length = n := by
  have hs : String.ofList (Base64.encode bytes) = s := by
    rw [Base64.encode_of_decode h, String.ofList_toList]
  rw [← hs, Base64.utf8ByteSize_encode] at hsize
  exact Base64.encodedLen_injective hsize

/-- **No decoding panics**, whatever the engine does with buffers that are too small. -/
theorem decode_eq_of_len (h : encodedLen n = some (Base64.encodedLen n)) (s : String) :
    decode E n s = some (Base64.decodeN n s) := by
  unfold decode Base64.decodeN
  simp only [h]
  by_cases hsize : s.utf8ByteSize = Base64.encodedLen n
  · rw [if_neg (not_not.mpr hsize), if_pos hsize]
    cases hdecode : Base64.decode s.toList with
    | none =>
      rw [E.decode_refused s _ hdecode hsize.le]
      rfl
    | some bytes =>
      have hlen := length_of_decode hsize hdecode
      obtain ⟨buf, hbuf, hbytes⟩ := E.decode_accepted s (List.Vector.replicate n 0) bytes hdecode
        hlen.le
      have hdrop : (List.Vector.replicate n (0 : UInt8)).toList.drop bytes.length = [] := by
        rw [hlen, List.drop_eq_nil_iff, List.Vector.toList_length]
      rw [hdrop, List.append_nil] at hbytes
      rw [hbuf]
      simp only [Option.bind_eq_bind, Option.bind_some, dif_pos hlen, Option.pure_def]
      congr 2
      exact Subtype.ext hbytes
  · rw [if_pos hsize, if_neg hsize]

/-- **Decoding is that of the provider's model.** -/
theorem decode_eq (h : n ≤ ISIZE_MAX) (s : String) :
    decode E n s = some (Base64.decodeN n s) := decode_eq_of_len (encodedLen_of_le h) s

/-- No decoding panics, and only encodings are accepted, also of lengths that no array has. -/
theorem decode_ok (n : ℕ) (s : String) :
    ∃ r, decode E n s = some r ∧ ∀ b : List.Vector UInt8 n, r = some b → serialize E b = s := by
  by_cases hlen : Base64.encodedLen n < 2 ^ 64
  · refine ⟨_, decode_eq_of_len (if_pos hlen) s, fun b hb => ?_⟩
    rw [serialize_eq]
    exact Base64.decodeN_eq_some_iff.mp hb
  · refine ⟨none, ?_, fun b hb => by cases hb⟩
    unfold decode
    rw [show encodedLen n = none from if_neg hlen]

theorem decode_serialize (h : n ≤ ISIZE_MAX) (b : List.Vector UInt8 n) :
    decode E n (serialize E b) = some (some b) := by
  rw [decode_eq h, serialize_eq, Base64.decodeN_encode]

variable (E) in
/-- **A bijection of the arrays of each length onto the texts that are accepted for it**, and no
text is a panic. -/
structure EncodesArrays : Prop where
  noPanic : ∀ n s, decode E n s ≠ none
  decode_encode : ∀ n ≤ ISIZE_MAX, ∀ b : List.Vector UInt8 n,
    decode E n (encode E b "") = some (some b)
  encode_decode : ∀ (n : ℕ) (s : String) (b : List.Vector UInt8 n),
    decode E n s = some (some b) → encode E b "" = s

theorem encodesArrays (E : Base64.Engine) : EncodesArrays E where
  noPanic n s := by
    obtain ⟨r, hr, -⟩ := decode_ok (E := E) n s
    rw [hr]
    exact Option.some_ne_none r
  decode_encode n hn b := decode_serialize hn b
  encode_decode n s b h := by
    obtain ⟨r, hr, hencode⟩ := decode_ok (E := E) n s
    exact hencode b (Option.some.inj (hr.symm.trans h))

end Base64Serde

namespace FsAuth

/-! ## Tokens over the engine -/

section Tokens

variable (E : Base64.Engine) (hashToken : BareToken → HashedToken)

/-- `token_from_str` over an engine; `none` is a panic. -/
def tokenFromStrOn (tokenStr : String) : Option (AuthResult HashedToken) :=
  match stripPrefix TOKEN_PREFIX tokenStr with
  | none => some (.error .invalidCredentials)
  | some rest =>
    match Base64Serde.decode E 21 rest with
    | none => none
    | some none => some (.error .invalidCredentials)
    | some (some bareToken) => some (.ok (hashToken bareToken))

/-- `token_to_str` over an engine; `none` is a panic, of a debug assertion also. -/
def tokenToStrOn (bareToken : BareToken) : Option String :=
  let out := Base64Serde.encode E bareToken TOKEN_PREFIX
  if TOKEN_PREFIX.toList.isPrefixOf out.toList && 21 < out.utf8ByteSize then
    match tokenFromStrOn E hashToken out with
    | some (.ok hashed) => if hashed = hashToken bareToken then some out else none
    | _ => none
  else none

/-- The text is read as the bare token. -/
def StandsFor (tokenStr : String) (bareToken : BareToken) : Prop :=
  ∃ rest, stripPrefix TOKEN_PREFIX tokenStr = some rest ∧
    Base64Serde.decode E 21 rest = some (some bareToken)

variable {E hashToken} {s : String} {b : BareToken}

/-- **Reading a token never panics**, and is that of the provider's model. -/
theorem tokenFromStrOn_eq (s : String) :
    tokenFromStrOn E hashToken s = some (tokenFromStr hashToken s) := by
  unfold tokenFromStrOn tokenFromStr
  cases stripPrefix TOKEN_PREFIX s with
  | none => rfl
  | some rest =>
    simp only [Base64Serde.decode_eq (E := E) (n := 21) (by decide)]
    cases Base64.decodeN 21 rest <;> rfl

/-- **Neither does writing one**: the debug assertions hold. -/
theorem tokenToStrOn_eq (b : BareToken) : tokenToStrOn E hashToken b = some (tokenToStr b) := by
  have hout : Base64Serde.encode E b TOKEN_PREFIX = tokenToStr b := Base64Serde.encode_eq b _
  have hpre : TOKEN_PREFIX.toList.isPrefixOf (tokenToStr b).toList = true := by
    rw [toList_tokenToStr]
    exact List.isPrefixOf_iff_prefix.mpr (List.prefix_append _ _)
  have hlen : 21 < (tokenToStr b).utf8ByteSize := by
    rw [tokenToStr, String.utf8ByteSize_append, Base64.utf8ByteSize_encode, b.toList_length]
    decide
  unfold tokenToStrOn
  simp only [hout, hpre, hlen, decide_true, Bool.and_self, if_true, tokenFromStrOn_eq,
    tokenFromStr_tokenToStr]

/-- **A text stands for a bare token if it is that token's text.** -/
theorem standsFor_iff : StandsFor E s b ↔ tokenToStr b = s := by
  unfold StandsFor tokenToStr
  simp only [Base64Serde.decode_eq (E := E) (n := 21) (by decide), Option.some.injEq,
    stripPrefix_eq_some_iff, Base64.decodeN_eq_some_iff]
  constructor
  · rintro ⟨rest, rfl, rfl⟩
    rfl
  · rintro rfl
    exact ⟨_, rfl, rfl⟩

theorem tokenFromStr_ok_iff {hashed : HashedToken} :
    tokenFromStr hashToken s = .ok hashed ↔ ∃ b, tokenToStr b = s ∧ hashToken b = hashed := by
  constructor
  · intro h
    unfold tokenFromStr at h
    split at h
    · cases h
    · rename_i rest hrest
      split at h
      · cases h
      · rename_i b hb
        cases h
        refine ⟨b, ?_, rfl⟩
        rw [tokenToStr, Base64.decodeN_eq_some_iff.mp hb]
        exact stripPrefix_eq_some_iff.mp hrest
  · rintro ⟨b, rfl, rfl⟩
    exact tokenFromStr_tokenToStr b

theorem tokenToStr_injective : Function.Injective tokenToStr := by
  intro b b' h
  have hlist := congrArg String.toList h
  rw [toList_tokenToStr, toList_tokenToStr] at hlist
  exact List.Vector.toList_injective (Base64.encode_injective (List.append_cancel_left hlist))

variable (E hashToken) in
/-- **A bijection of the bare tokens onto the texts that are accepted**, which are read as the hash
of their token. -/
structure EncodesTokens : Prop where
  noPanic : ∀ s, tokenFromStrOn E hashToken s ≠ none
  read : ∀ b, ∃ s, tokenToStrOn E hashToken b = some s ∧
    tokenFromStrOn E hashToken s = some (.ok (hashToken b))
  unique : ∀ s hashed, tokenFromStrOn E hashToken s = some (.ok hashed) →
    (∃! b, tokenToStrOn E hashToken b = some s) ∧
      ∀ b, tokenToStrOn E hashToken b = some s → hashed = hashToken b
  apart : ∀ s s' b, StandsFor E s b → StandsFor E s' b → s = s'

theorem encodesTokens (E : Base64.Engine) (hashToken : BareToken → HashedToken) :
    EncodesTokens E hashToken where
  noPanic s := by
    rw [tokenFromStrOn_eq]
    exact Option.some_ne_none _
  read b := ⟨tokenToStr b, tokenToStrOn_eq b, by rw [tokenFromStrOn_eq, tokenFromStr_tokenToStr]⟩
  unique s hashed h := by
    rw [tokenFromStrOn_eq, Option.some.injEq, tokenFromStr_ok_iff] at h
    obtain ⟨b, rfl, rfl⟩ := h
    simp only [tokenToStrOn_eq, Option.some.injEq]
    refine ⟨⟨b, rfl, fun b' hb' => tokenToStr_injective hb'⟩, fun b' hb' => ?_⟩
    rw [tokenToStr_injective hb']
  apart _ _ _ hs hs' := (standsFor_iff.mp hs).symm.trans (standsFor_iff.mp hs')

/-- **The keys of the owners file** are encoded hashes, and after a reload each hash that was saved
finds its login. -/
structure KeepsHashes (E : Base64.Engine) (L : SerdeJson) : Prop where
  key : ∀ token : HashedToken, encToken token = Base64Serde.serialize E token ∧
    Base64Serde.decode E 28 (encToken token) = some (some token)
  reload : ∀ owners : Owners, ∃ reloaded,
    OwnersFile.loadOwnersFile L false (some (L.toVec owners.toJson)) = .ok reloaded ∧
      ∀ token, reloaded.loginForToken token = owners.loginForToken token

theorem keepsHashes (E : Base64.Engine) (L : SerdeJson) : KeepsHashes E L where
  key token := by
    have htoken : encToken token = Base64Serde.serialize E token :=
      (Base64Serde.serialize_eq token).symm
    refine ⟨htoken, ?_⟩
    rw [htoken, Base64Serde.decode_serialize (by decide)]
  reload _ := ⟨_, OwnersFile.loadOwnersFile_toVec, fun _ => rfl⟩

/-- **The encoding is a bijection onto the texts that are accepted**, over every engine that does
what its documentation says, for arrays of every length, which is at most `isize::MAX`. So a text is
a token of one bare token at most, no two texts are read as one, and saved hashes are found again
after a reload. -/
theorem encoding_bijective (E : Base64.Engine) (L : SerdeJson)
    (hashToken : BareToken → HashedToken) :
    Base64Serde.EncodesArrays E ∧ EncodesTokens E hashToken ∧ KeepsHashes E L :=
  ⟨Base64Serde.encodesArrays E, encodesTokens E hashToken, keepsHashes E L⟩

/-- The token of zeros: its text is read back, and is that of no other token. -/
theorem encoding_bijective_zero :
    Base64Serde.decode .documented 21 (Base64Serde.encode .documented tokenZero "") =
        some (some tokenZero) ∧
      ∃! b, tokenToStrOn .documented testHash b = some (tokenToStr tokenZero) := by
  obtain ⟨harrays, htokens, -⟩ := encoding_bijective .documented Json.compact testHash
  have hread : tokenFromStrOn .documented testHash (tokenToStr tokenZero) =
      some (.ok (testHash tokenZero)) := by
    rw [tokenFromStrOn_eq, tokenFromStr_tokenToStr]
  exact ⟨harrays.decode_encode 21 (by decide) tokenZero, (htokens.unique _ _ hread).1⟩

end Tokens

end FsAuth

end Freighter
