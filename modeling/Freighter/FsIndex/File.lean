import Freighter.Types.Codec

/-!
# The contents of an index file

JSON lines: an entry for each version, then the latest publish request.

* `deserializeData`, `serializeData`; `readVersion`, `readPublish`: the two parses of a line;
* **`deserializeData_serializeData`**: what is written is read back;
* **`index_file_roundTrips`**: and so is each of its lines, as the record it was written for.
-/

namespace Freighter

namespace FsIndex

variable (L : Libs)

/-- The contents of an index file. -/
abbrev Contents : Type := List CrateVersion × Option Publish

/-- The lines that are not empty. -/
def lines (jsonLines : Bytes) : List Bytes :=
  (jsonLines.splitOnP (· == 10)).filter fun line => !line.isEmpty

/-- One turn of the loop of `deserialize_data`: an entry if the line parses as one, else the
publish request. -/
def deserializeLine (acc : Contents) (line : Bytes) : Except IndexError Contents :=
  match (L.json.fromSlice line).bind (CrateVersion.fromJson L) with
  | some version => .ok (acc.1 ++ [version], acc.2)
  | none =>
    match (L.json.fromSlice line).bind (Publish.fromJson L) with
    | some p => .ok (acc.1, some p)
    | none => .error .serviceError

def deserializeData (jsonLines : Bytes) : Except IndexError Contents :=
  (lines jsonLines).foldlM (deserializeLine L) ([], none)

/-- Writing to memory does not fail. -/
def serializeData (versions : List CrateVersion) (publish : Option Publish) : Bytes :=
  versions.flatMap (fun v => L.json.toVec v.toJson ++ [10]) ++
    (publish.toList.flatMap fun p => L.json.toVec p.toJson ++ [10])

/-! ## The round trip -/

theorem lines_cons {line : Bytes} (h10 : 10 ∉ line) (hne : line ≠ []) (rest : Bytes) :
    lines (line ++ [10] ++ rest) = line :: lines rest := by
  have hsplit : (line ++ 10 :: rest).splitOnP (· == 10) = line :: rest.splitOnP (· == 10) := by
    refine List.splitOnP_append_cons_of_forall_mem (fun x hx => ?_) 10 (by decide) rest
    simpa using fun h : x = 10 => h10 (h ▸ hx)
  unfold lines
  rw [List.append_assoc, List.singleton_append, hsplit, List.filter_cons,
    if_pos (by simpa using hne)]

theorem lines_flatMap {α : Type} (enc : α → Json) (l : List α) (rest : Bytes) :
    lines (l.flatMap (fun a => L.json.toVec (enc a) ++ [10]) ++ rest) =
      l.map (fun a => L.json.toVec (enc a)) ++ lines rest := by
  induction l with
  | nil => rfl
  | cons a l ih =>
    rw [List.flatMap_cons, List.append_assoc,
      lines_cons (L.json.newline_notMem _) (L.json.toVec_ne_nil _), ih]
    rfl

theorem deserializeLine_version (acc : Contents) (v : CrateVersion) :
    deserializeLine L acc (L.json.toVec v.toJson) = .ok (acc.1 ++ [v], acc.2) := by
  unfold deserializeLine
  rw [L.json.fromSlice_toVec _ (v.fits_toJson 123), Option.bind_some, CrateVersion.fromJson_toJson]

theorem deserializeLine_publish (acc : Contents) (p : Publish) :
    deserializeLine L acc (L.json.toVec p.toJson) = .ok (acc.1, some p) := by
  unfold deserializeLine
  rw [L.json.fromSlice_toVec _ (p.fits_toJson 123), Option.bind_some, Option.bind_some,
    CrateVersion.fromJson_publish, Publish.fromJson_toJson]

theorem foldlM_versions (versions : List CrateVersion) (acc : Contents) (rest : List Bytes) :
    (versions.map (fun v => L.json.toVec v.toJson) ++ rest).foldlM (deserializeLine L) acc =
      rest.foldlM (deserializeLine L) (acc.1 ++ versions, acc.2) := by
  induction versions generalizing acc with
  | nil => rw [List.append_nil]; rfl
  | cons v versions ih =>
    rw [List.map_cons, List.cons_append, List.foldlM_cons, deserializeLine_version]
    refine (ih _).trans ?_
    rw [List.append_assoc, List.singleton_append]

/-- **What is written is read back.** -/
theorem deserializeData_serializeData (versions : List CrateVersion) (publish : Option Publish) :
    deserializeData L (serializeData L versions publish) = .ok (versions, publish) := by
  unfold deserializeData serializeData
  rw [lines_flatMap L CrateVersion.toJson, foldlM_versions, List.nil_append]
  cases publish with
  | none => rfl
  | some p =>
    have hlines : lines ([p].flatMap fun p => L.json.toVec p.toJson ++ [10]) =
        [L.json.toVec p.toJson] := by
      have := lines_flatMap L Publish.toJson [p] []
      rw [List.append_nil] at this
      exact this
    rw [Option.toList_some, hlines, List.foldlM_cons, deserializeLine_publish]
    rfl

/-! ## The lines -/

/-- `serde_json::from_slice::<CrateVersion>`. -/
def readVersion (line : Bytes) : Option CrateVersion :=
  (L.json.fromSlice line).bind (CrateVersion.fromJson L)

/-- `serde_json::from_slice::<Publish>`. -/
def readPublish (line : Bytes) : Option Publish :=
  (L.json.fromSlice line).bind (Publish.fromJson L)

theorem readVersion_version (v : CrateVersion) :
    readVersion L (L.json.toVec v.toJson) = some v := by
  unfold readVersion
  rw [L.json.fromSlice_toVec _ (v.fits_toJson 123), Option.bind_some, CrateVersion.fromJson_toJson]

theorem readVersion_publish (p : Publish) : readVersion L (L.json.toVec p.toJson) = none := by
  unfold readVersion
  rw [L.json.fromSlice_toVec _ (p.fits_toJson 123), Option.bind_some, CrateVersion.fromJson_publish]

theorem readPublish_publish (p : Publish) : readPublish L (L.json.toVec p.toJson) = some p := by
  unfold readPublish
  rw [L.json.fromSlice_toVec _ (p.fits_toJson 123), Option.bind_some, Publish.fromJson_toJson]

/-- The lines are those of the records, one for each. -/
theorem lines_serializeData (versions : List CrateVersion) (publish : Option Publish) :
    lines (serializeData L versions publish) = versions.map (fun v => L.json.toVec v.toJson) ++
      publish.toList.map fun p => L.json.toVec p.toJson := by
  have hpublish := lines_flatMap L Publish.toJson publish.toList []
  rw [List.append_nil] at hpublish
  unfold serializeData
  rw [lines_flatMap L CrateVersion.toJson, hpublish]
  simp [lines]

/-- **The index file format round-trips.** Every list of entries with an optional publish request is
read back as it was written. Its lines are those of its records, one for each, whatever the strings
in them: the line of an entry reads as this entry, and the line of the request reads as no entry and
as this request. -/
theorem index_file_roundTrips (L : Libs) (versions : List CrateVersion)
    (publish : Option Publish) :
    deserializeData L (serializeData L versions publish) = .ok (versions, publish) ∧
    lines (serializeData L versions publish) = versions.map (fun v => L.json.toVec v.toJson) ++
      publish.toList.map (fun p => L.json.toVec p.toJson) ∧
    (∀ v : CrateVersion, readVersion L (L.json.toVec v.toJson) = some v) ∧
    (∀ p : Publish, readVersion L (L.json.toVec p.toJson) = none ∧
      readPublish L (L.json.toVec p.toJson) = some p) := by
  refine ⟨deserializeData_serializeData L versions publish, lines_serializeData L versions publish,
    readVersion_version L, fun p => ?_⟩
  exact ⟨readVersion_publish L p, readPublish_publish L p⟩

/-- An entry with a renamed dependency and every optional field, some of them with line ends. -/
def fullEntry : CrateVersion where
  name := "foo"
  vers := Version.new 1 2 3
  deps :=
    [{ name := "json"
       req := VersionReq.caret 1 2 0
       features := ["std", "raw\nvalue"]
       optional := true
       defaultFeatures := false
       target := some "cfg(unix)"
       kind := .build
       registry := some "https://index.example"
       package := some "serde_json" }]
  cksum := List.Vector.replicate 32 7
  features := HashMap.collect [("default", ["std"])]
  yanked := true
  links := some "z\n"
  v := 2
  features2 := HashMap.collect [("full", ["dep:json", "json?/std"])]

example : let data := serializeData Libs.canonical [fullEntry, fullEntry] (some foo)
    (lines data).length = 3 ∧
      deserializeData Libs.canonical data = .ok ([fullEntry, fullEntry], some foo) :=
  ⟨by decide +kernel, deserializeData_serializeData Libs.canonical _ _⟩

end FsIndex

end Freighter
