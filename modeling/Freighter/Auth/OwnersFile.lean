import Freighter.Auth.Model
import Freighter.Lib.BufWriter
import Freighter.Lib.JsonPieces
import Freighter.Types.Codec
import Mathlib.Data.Finset.Sort
import Mathlib.Data.String.Basic

/-!
# The owners file

The tables are saved as one JSON object, written in pieces through a buffered writer into a new file
that then takes the place of `owners.json`. The writer is dropped, not flushed, and what it still
holds back is written by its drop, which discards the error.

* `Owners.toJson`, `Owners.fromJson`; **`Owners.fromJson_toJson`**.
* `toWriter`, `OwnersFile.syncOwners`, `OwnersFile.loadOwnersFile`: the bytes of the file.
* **`OwnersFile.sound_iff`**: when a save is all or nothing.
* **`OwnersFile.syncOwners_view`**, **`OwnersFile.loadOwnersFile_view`**: the provider's model of
  its file is right about the bytes.
-/

namespace Freighter

namespace FsAuth

open Serde

/-! ## The tables as JSON -/

/-- A hashed token as the key of a map, `base64_serde`. -/
def encToken (token : HashedToken) : String := String.ofList (Base64.encode token.toList)

def decTokenOwner (kv : String × Json) : Option (HashedToken × String) := do
  let token ← Base64.decodeN 28 kv.1
  let login ← decString kv.2
  pure (token, login)

def decTokenOwners : Json → Option (HashMap HashedToken String)
  | .obj kvs => (kvs.mapM decTokenOwner).map HashMap.collect
  | _ => none

/-- A `BTreeSet` is written in order, and read in any. -/
def encLogins (logins : Finset String) : Json := encStrings logins.sort

def decLogins (j : Json) : Option (Finset String) := (decList decString j).map List.toFinset

def Owners.toJson (o : Owners) : Json :=
  .obj [("token_owners", .obj (o.tokenOwners.iter.map fun e => (encToken e.1, .str e.2))),
    ("crate_owners", encMap encLogins o.crateOwners)]

/-- `ownerTokens` is skipped, and empty. -/
def Owners.ofFields (kvs : List (String × Json)) : Option Owners := do
  let tokenOwners ← required decTokenOwners "token_owners" kvs
  let crateOwners ← required (decMap decLogins) "crate_owners" kvs
  pure ⟨tokenOwners, crateOwners, ∅⟩

def Owners.fromJson (j : Json) : Option Owners :=
  (fields ["token_owners", "crate_owners"] 2 j).bind ofFields

/-- What is there after a reload. -/
def Owners.saved (o : Owners) : Owners := { o with ownerTokens := ∅ }

theorem decTokenOwners_enc (m : HashMap HashedToken String) :
    decTokenOwners (.obj (m.iter.map fun e => (encToken e.1, .str e.2))) = some m := by
  have hes := mapM_map (f := decTokenOwner)
    (g := fun e : HashedToken × String => (encToken e.1, Json.str e.2))
    (fun e => by simp [decTokenOwner, encToken, Base64.decodeN_encode, decString]) m.iter
  rw [decTokenOwners, hes, Option.map_some, HashMap.collect_iter]

theorem decLogins_enc (logins : Finset String) : decLogins (encLogins logins) = some logins := by
  rw [decLogins, encLogins, decStrings, Option.map_some, Finset.sort_toFinset]

theorem Owners.fits_toJson (o : Owners) : o.toJson.fits 127 = true := by
  have hcrates : (encMap encLogins o.crateOwners).fits 126 = true :=
    fits_encMap _ (fun _ => fits_encStrings _ _) o.crateOwners
  simp [Owners.toJson, Json.fits, hcrates]

/-- **The tables are read back**, but for the reverse index. -/
theorem Owners.fromJson_toJson (o : Owners) : Owners.fromJson o.toJson = some o.saved := by
  have htokens := decTokenOwners_enc o.tokenOwners
  have hcrates := decMap_encMap decLogins_enc o.crateOwners
  rw [Owners.toJson, Owners.fromJson, fields_obj, Option.bind_some]
  simp [Owners.ofFields, required, field, htokens, hcrates, Owners.saved]

theorem Owners.ownerTokens_fromJson {j : Json} {o : Owners} (h : Owners.fromJson j = some o) :
    o.ownerTokens = ∅ := by
  obtain ⟨kvs, -, hkvs⟩ := Option.bind_eq_some_iff.mp h
  simp only [Owners.ofFields, Option.bind_eq_bind, Option.bind_eq_some_iff] at hkvs
  obtain ⟨t, -, c, -, ho⟩ := hkvs
  cases ho
  rfl

/-! ## The save -/

/-- What the file system does during a save. -/
structure SaveIo where
  createFails : Bool := false
  writes : Disk := .healthy
  persistFails : Bool := false

/-- `serde_json::to_writer` into a `BufWriter`, which is dropped on return. The drop flushes it and
discards the error. -/
def toWriter (cap : ℕ) (pieces : List (List UInt8)) (d : Disk) : Bool × BufWriter UInt8 :=
  let (ok, w) := BufWriter.writeChunks cap pieces d .empty
  (ok, (BufWriter.flush d w).2)

namespace OwnersFile

variable (L : SerdeJson) (pieces : Json → List (List UInt8)) (cap : ℕ)

/-- The temporary file is persisted as `owners.json`, or removed. -/
def syncOwners (io : SaveIo) (owners : Owners) (file : Option (List UInt8)) :
    AuthResult Unit × Option (List UInt8) :=
  if io.createFails then (.error .serviceError, file)
  else
    match toWriter cap (pieces owners.toJson) io.writes with
    | (false, _) => (.error .serviceError, file)
    | (true, tmp) =>
      if io.persistFails then (.error .serviceError, file) else (.ok (), some tmp.written)

def loadOwnersFile (readFails : Bool) (file : Option (List UInt8)) : AuthResult Owners :=
  if readFails then .error .serviceError
  else
    match file with
    | none => .ok ⟨∅, ∅, ∅⟩
    | some data =>
      match (L.fromSlice data).bind Owners.fromJson with
      | none => .error .serviceError
      | some owners => .ok owners

/-! ## What the writer leaves -/

/-- The sends before the drop: on a disk that never fails, the drop's is the next. -/
def sendsBefore (owners : Owners) : ℕ :=
  (BufWriter.writeChunks cap (pieces owners.toJson) .healthy .empty).2.sends

variable {L pieces cap} {owners : Owners} {d : Disk}

/-- **The end of the text is held back**, so that the drop has something to write. -/
theorem held_back (hw : WritesPieces L pieces) (hcap : 1 < cap) :
    (BufWriter.writeChunks cap (pieces owners.toJson) .healthy .empty).2.buf ≠ [] :=
  BufWriter.tail_writeChunks (hw.closes _) (List.cons_ne_nil _ _) hcap

theorem contents_before (hw : WritesPieces L pieces) (hcap : 1 < cap) :
    (BufWriter.writeChunks cap (pieces owners.toJson) .healthy .empty).2.contents =
      L.toVec owners.toJson := by
  rw [BufWriter.contents_writeChunks (Nat.lt_of_succ_lt hcap), hw.flatten]
  rfl

/-- A text that fits the buffer is sent by the drop alone. -/
theorem sendsBefore_of_lt (h : (pieces owners.toJson).flatten.length < cap) :
    sendsBefore pieces cap owners = 0 := by
  have hlt : (BufWriter.empty : BufWriter UInt8).buf.length +
      (pieces owners.toJson).flatten.length < cap := by rwa [← Nat.zero_add (List.length _)] at h
  rw [sendsBefore, BufWriter.writeChunks_of_lt _ hlt]
  rfl

/-- A send before the drop fails: `to_writer` says so. -/
theorem toWriter_failed (h : ∃ i < sendsBefore pieces cap owners, d i ≠ none) :
    (toWriter cap (pieces owners.toJson) d).1 = false := by
  obtain ⟨i, hi, hd⟩ := h
  exact (BufWriter.honestAt_writeChunks _).fails d ⟨i, Nat.zero_le i, hi, hd⟩

/-- No send before the drop fails: the drop decides. -/
theorem toWriter_clean (h : ∀ i < sendsBefore pieces cap owners, d i = none) :
    toWriter cap (pieces owners.toJson) d = (true, (BufWriter.flush d
      (BufWriter.writeChunks cap (pieces owners.toJson) .healthy .empty).2).2) := by
  have hhonest : BufWriter.HonestAt (BufWriter.writeChunks cap (pieces owners.toJson)) .empty :=
    BufWriter.honestAt_writeChunks _
  unfold toWriter
  rw [hhonest.clean d fun i _ hi => h i hi, ← hhonest.healthy]

theorem toWriter_written (hw : WritesPieces L pieces) (hcap : 1 < cap)
    (h : ∀ i < sendsBefore pieces cap owners, d i = none)
    (hlast : d (sendsBefore pieces cap owners) = none) :
    toWriter cap (pieces owners.toJson) d =
      (true, ⟨[], L.toVec owners.toJson, sendsBefore pieces cap owners + 1⟩) := by
  rw [toWriter_clean h, BufWriter.flush_of_written (held_back hw hcap) hlast,
    contents_before hw hcap]
  rfl

/-- **The drop's send fails**: `to_writer` has succeeded, and the file is short. -/
theorem toWriter_truncated (hw : WritesPieces L pieces) (hcap : 1 < cap)
    (h : ∀ i < sendsBefore pieces cap owners, d i = none)
    (hlast : d (sendsBefore pieces cap owners) ≠ none) :
    ∃ tmp, toWriter cap (pieces owners.toJson) d = (true, tmp) ∧
      tmp.sends = sendsBefore pieces cap owners + 1 ∧
      tmp.written <+: L.toVec owners.toJson ∧ tmp.written ≠ L.toVec owners.toJson := by
  have hflush := (BufWriter.flush_of_failed (held_back hw hcap) hlast).2
  rw [contents_before hw hcap] at hflush
  exact ⟨_, toWriter_clean h, hflush⟩

/-- A `to_writer` that succeeds leaves a text that the whole one begins with. -/
theorem prefix_of_written (hw : WritesPieces L pieces) (hcap : 1 < cap) {tmp : BufWriter UInt8}
    (h : toWriter cap (pieces owners.toJson) d = (true, tmp)) :
    tmp.written <+: L.toVec owners.toJson := by
  by_cases hbefore : ∃ i < sendsBefore pieces cap owners, d i ≠ none
  · have hfail := toWriter_failed hbefore
    rw [h] at hfail
    cases hfail
  · have hclean : ∀ i < sendsBefore pieces cap owners, d i = none := by simpa using hbefore
    by_cases hlast : d (sendsBefore pieces cap owners) = none
    · rw [toWriter_written hw hcap hclean hlast] at h
      cases h
      exact List.prefix_rfl
    · obtain ⟨tmp', htmp, -, hpre, -⟩ := toWriter_truncated hw hcap hclean hlast
      rw [htmp] at h
      cases h
      exact hpre

/-! ## All or nothing -/

section Sound

variable (L : SerdeJson) (pieces : Json → List (List UInt8)) (cap : ℕ)

/-- The sends to the temporary file, with those of the drop. -/
def sendsMade (io : SaveIo) (owners : Owners) : ℕ :=
  if io.createFails then 0 else (toWriter cap (pieces owners.toJson) io.writes).2.sends

/-- **The save is all or nothing.** If it succeeds, the file is the whole text and is loaded as what
was saved. If a send to the temporary file failed, it fails, and the file is what it was. -/
structure Sound (io : SaveIo) (owners : Owners) (file : Option (List UInt8)) : Prop where
  complete : (syncOwners pieces cap io owners file).1 = .ok () →
    (syncOwners pieces cap io owners file).2 = some (L.toVec owners.toJson) ∧
      loadOwnersFile L false (syncOwners pieces cap io owners file).2 = .ok owners.saved
  failed : (∃ i < sendsMade pieces cap io owners, io.writes i ≠ none) →
    syncOwners pieces cap io owners file = (.error .serviceError, file)

variable {L pieces cap} {io : SaveIo} {file : Option (List UInt8)}

variable (file) in
/-- A save that reaches the rename puts what the writer left in the place of the file. -/
theorem syncOwners_persisted {tmp : BufWriter UInt8} (hc : io.createFails = false)
    (hp : io.persistFails = false)
    (hw : toWriter cap (pieces owners.toJson) io.writes = (true, tmp)) :
    syncOwners pieces cap io owners file = (.ok (), some tmp.written) := by
  simp only [syncOwners, hc, hw, hp, Bool.false_eq_true, if_false]

theorem sound_of_error (h : syncOwners pieces cap io owners file = (.error .serviceError, file)) :
    Sound L pieces cap io owners file where
  complete hok := by
    rw [h] at hok
    cases hok
  failed _ := h

/-- What was saved whole is loaded. -/
theorem loadOwnersFile_toVec :
    loadOwnersFile L false (some (L.toVec owners.toJson)) = .ok owners.saved := by
  simp only [loadOwnersFile, L.fromSlice_toVec _ owners.fits_toJson, Option.bind_some,
    Owners.fromJson_toJson, Bool.false_eq_true, if_false]

theorem syncOwners_createFails (h : io.createFails = true) :
    syncOwners pieces cap io owners file = (.error .serviceError, file) := if_pos h

theorem syncOwners_persistFails (h : io.persistFails = true) :
    syncOwners pieces cap io owners file = (.error .serviceError, file) := by
  unfold syncOwners
  split_ifs
  · rfl
  · cases toWriter cap (pieces owners.toJson) io.writes with
    | mk ok tmp => cases ok <;> rfl

theorem syncOwners_failed (h : ∃ i < sendsBefore pieces cap owners, io.writes i ≠ none) :
    syncOwners pieces cap io owners file = (.error .serviceError, file) := by
  have hfail := toWriter_failed h
  unfold syncOwners
  cases hw : toWriter cap (pieces owners.toJson) io.writes with
  | mk ok tmp =>
    rw [hw] at hfail
    cases hfail
    split_ifs <;> rfl

/-- The drop's send fails: the save has succeeded all the same. -/
theorem not_sound_of_truncated (hw : WritesPieces L pieces) (hcap : 1 < cap)
    (hc : io.createFails = false) (hp : io.persistFails = false)
    (hbefore : ∀ i < sendsBefore pieces cap owners, io.writes i = none)
    (hlast : io.writes (sendsBefore pieces cap owners) ≠ none) :
    ¬ Sound L pieces cap io owners file := by
  intro h
  obtain ⟨tmp, htmp, hsends, -, -⟩ := toWriter_truncated hw hcap hbefore hlast
  have hmade : sendsMade pieces cap io owners = sendsBefore pieces cap owners + 1 := by
    simp only [sendsMade, hc, htmp, hsends, Bool.false_eq_true, if_false]
  have herr := h.failed ⟨_, hmade ▸ Nat.lt_succ_self _, hlast⟩
  rw [syncOwners_persisted file hc hp htmp] at herr
  cases herr

/-- No send fails, the drop's included. -/
theorem sound_of_written (hw : WritesPieces L pieces) (hcap : 1 < cap)
    (hc : io.createFails = false) (hp : io.persistFails = false)
    (hbefore : ∀ i < sendsBefore pieces cap owners, io.writes i = none)
    (hlast : io.writes (sendsBefore pieces cap owners) = none) :
    Sound L pieces cap io owners file := by
  have htmp := toWriter_written hw hcap hbefore hlast
  have hsave := syncOwners_persisted file hc hp htmp
  refine ⟨fun _ => ?_, ?_⟩
  · rw [hsave]
    exact ⟨rfl, loadOwnersFile_toVec⟩
  · rintro ⟨i, hi, hfail⟩
    simp only [sendsMade, hc, htmp, Bool.false_eq_true, if_false] at hi
    rcases Nat.lt_succ_iff_lt_or_eq.mp hi with hlt | rfl
    · exact absurd (hbefore i hlt) hfail
    · exact absurd hlast hfail

/-- **Exactly when a save is all or nothing**: unless the one write that fails is the last, which
the drop of the buffer makes. -/
theorem sound_iff (hw : WritesPieces L pieces) (hcap : 1 < cap) (io : SaveIo) (owners : Owners)
    (file : Option (List UInt8)) :
    Sound L pieces cap io owners file ↔ io.createFails = true ∨ io.persistFails = true ∨
      io.writes (sendsBefore pieces cap owners) = none ∨
      ∃ i < sendsBefore pieces cap owners, io.writes i ≠ none := by
  constructor
  · intro h
    by_contra hne
    simp only [not_or, Bool.not_eq_true, not_exists, not_and, not_not] at hne
    obtain ⟨hc, hp, hlast, hbefore⟩ := hne
    exact not_sound_of_truncated hw hcap hc hp hbefore hlast h
  · intro h
    by_cases hbefore : ∃ i < sendsBefore pieces cap owners, io.writes i ≠ none
    · exact sound_of_error (syncOwners_failed hbefore)
    cases hc : io.createFails with
    | true => exact sound_of_error (syncOwners_createFails hc)
    | false =>
      cases hp : io.persistFails with
      | true => exact sound_of_error (syncOwners_persistFails hp)
      | false =>
        have hlast : io.writes (sendsBefore pieces cap owners) = none := by
          simpa [hc, hp, hbefore] using h
        exact sound_of_written hw hcap hc hp (by simpa using hbefore) hlast

/-- The first registration of `user1`. -/
def oneToken : Owners := ⟨HashMap.collect [(testHash tokenZero, "user1")], ∅, ∅⟩

/-- After that of `user2`, who has published `crate1`. -/
def twoTokens : Owners :=
  ⟨HashMap.collect [(testHash tokenZero, "user1"), (testHash tokenOne, "user2")],
    HashMap.collect [("crate1", {"user2"})], ∅⟩

/-- The first send of a save over the tables of before, with a small buffer, fails. -/
def firstSendFails : SaveIo := { writes := fun i => if i = 0 then some 7 else none }

/-- The save fails, and the file is still that of before. -/
theorem sound_early :
    let file := some (Json.compact.toVec oneToken.toJson)
    Sound Json.compact Json.pieceBytes 64 firstSendFails twoTokens file ∧
      syncOwners Json.pieceBytes 64 firstSendFails twoTokens file = (.error .serviceError, file) ∧
      loadOwnersFile Json.compact false file = .ok oneToken.saved := by
  intro file
  have hsends : 0 < sendsBefore Json.pieceBytes 64 twoTokens := by decide +kernel
  have hmade : 0 < sendsMade Json.pieceBytes 64 firstSendFails twoTokens := by decide +kernel
  have hsound : Sound Json.compact Json.pieceBytes 64 firstSendFails twoTokens file :=
    (sound_iff writesPieces_compact (by decide) firstSendFails twoTokens file).mpr
      (Or.inr (Or.inr (Or.inr ⟨0, hsends, Option.some_ne_none 7⟩)))
  exact ⟨hsound, hsound.failed ⟨0, hmade, Option.some_ne_none 7⟩, loadOwnersFile_toVec⟩

/-- A small file is written by the drop alone, on a disk that has no room. -/
theorem not_sound_full :
    ¬ Sound Json.compact Json.pieceBytes 8192 { writes := fun _ => some 0 } oneToken none := by
  have hlt : (Json.pieceBytes oneToken.toJson).flatten.length < 8192 := by decide
  have hzero : sendsBefore Json.pieceBytes 8192 oneToken = 0 := sendsBefore_of_lt hlt
  refine not_sound_of_truncated writesPieces_compact (by decide) rfl rfl ?_ ?_
  · rw [hzero]
    exact fun i hi => absurd hi (Nat.not_lt_zero i)
  · exact Option.some_ne_none 0

end Sound

/-! ## The provider's model of the file -/

section View

/-- **No text of an object reads when it is cut short.** -/
def ReadsWhole (L : SerdeJson) : Prop :=
  ∀ kvs data, data <+: L.toVec (.obj kvs) → data ≠ L.toVec (.obj kvs) → L.fromSlice data = none

theorem readsWhole_compact : ReadsWhole Json.compact := fun _ _ h hne => Json.fromSlice_cut h hne

variable (L : SerdeJson) (pieces : Json → List (List UInt8)) (cap : ℕ)

/-- What the bytes at `owners.json` are. -/
def view : Option (List UInt8) → OwnersJson
  | none => .missing
  | some data =>
    match (L.fromSlice data).bind Owners.fromJson with
    | none => .garbage
    | some owners => .saved owners.tokenOwners owners.crateOwners

/-- What becomes of a save. -/
def outcome (io : SaveIo) (owners : Owners) : Write :=
  if io.createFails then .failed
  else
    match toWriter cap (pieces owners.toJson) io.writes with
    | (false, _) => .failed
    | (true, tmp) =>
      if io.persistFails then .failed
      else if tmp.written = L.toVec owners.toJson then .done else .truncated

variable {L pieces cap}

theorem view_toVec : view L (some (L.toVec owners.toJson)) =
    .saved owners.tokenOwners owners.crateOwners := by
  simp only [view, L.fromSlice_toVec _ owners.fits_toJson, Option.bind_some,
    Owners.fromJson_toJson, Owners.saved]

theorem view_cut (hr : ReadsWhole L) {data : List UInt8} (h : data <+: L.toVec owners.toJson)
    (hne : data ≠ L.toVec owners.toJson) : view L (some data) = .garbage := by
  simp only [view, hr _ data h hne, Option.bind_none]

/-- **The save of the model is the save of the bytes.** -/
theorem syncOwners_view (hw : WritesPieces L pieces) (hcap : 1 < cap) (hr : ReadsWhole L)
    (io : SaveIo) (readFails : Bool) (owners : Owners) (file : Option (List UInt8)) :
    (syncOwners pieces cap io owners file).map id (view L) =
      FsAuth.syncOwners ⟨readFails, outcome L pieces cap io owners⟩ owners (view L file) := by
  by_cases hc : io.createFails = true
  · rw [syncOwners, outcome, if_pos hc, if_pos hc]
    rfl
  rw [syncOwners, outcome, if_neg hc, if_neg hc]
  cases htmp : toWriter cap (pieces owners.toJson) io.writes with
  | mk ok tmp =>
    cases ok with
    | false => rfl
    | true =>
      cases hp : io.persistFails with
      | true => rfl
      | false =>
        by_cases hwhole : tmp.written = L.toVec owners.toJson
        · simp only [hwhole, Bool.false_eq_true, if_false, if_true, Prod.map, view_toVec]
          rfl
        · simp only [hwhole, Bool.false_eq_true, if_false, Prod.map,
            view_cut hr (prefix_of_written hw hcap htmp) hwhole]
          rfl

theorem loadOwnersFile_view (io : Io) (p : Option Owners) (file : Option (List UInt8)) :
    loadOwnersFile L io.readFails file = FsAuth.loadOwnersFile io ⟨p, view L file⟩ := by
  unfold loadOwnersFile FsAuth.loadOwnersFile
  split_ifs
  · rfl
  cases file with
  | none => rfl
  | some data =>
    simp only [view]
    cases h : (L.fromSlice data).bind Owners.fromJson with
    | none => rfl
    | some owners =>
      obtain ⟨j, -, hj⟩ := Option.bind_eq_some_iff.mp h
      rw [← Owners.ownerTokens_fromJson hj]

end View

end OwnersFile

end FsAuth

end Freighter
