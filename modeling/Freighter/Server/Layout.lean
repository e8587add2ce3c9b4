import Freighter.Lib.Path
import Freighter.Server.Routes

/-!
# Where index files are

`crate_meta_file_rel_path` as it slices bytes, and `Client::crate_prefix`, which lays out the same
directories.

* `metaFileRelPath`, `Client.cratePrefix`: `none` is a panic;
* **`metaFileRelPath_eq`**: no slice panics, and characters may be counted for bytes;
* `pieces_of_name`, `not_ancestor`: the components of a path, and that no file is in another's way;
* **`index_layout`**: the index paths are apart from each other and are the client's.
-/

namespace Freighter

namespace FsIndex

/-! ## The two layouts -/

/-- `is_valid_crate_file_name_char`, of a byte. -/
def isValidCrateFileNameByte (c : UInt8) : Bool :=
  ((65 ≤ c && c ≤ 90 || 97 ≤ c && c ≤ 122) && (97 ≤ c && c ≤ 122)) || (48 ≤ c && c ≤ 57) ||
    c == 45 || c == 95

/-- `crate_meta_file_rel_path`, with its slices. Its sum does not overflow: it is at most 76. -/
def metaFileRelPath (lcCrateName : String) : Option (Option String) :=
  let name := lcCrateName.toList
  let path (dir : List Char) : Option String :=
    some (String.ofList ("index/".toList ++ (dir ++ '/' :: name)))
  if 64 < (Text.utf8 name).length || !(Text.utf8 name).all isValidCrateFileNameByte then some none
  else
    match (Text.utf8 name).length with
    | 0 => some none
    | 1 => some (path ['1'])
    | 2 => some (path ['2'])
    | 3 => (Text.splitAt 1 name).map fun a => path ("3/".toList ++ a.1)
    | _ => (Text.splitAt 4 name).bind fun a =>
      (Text.splitAt 2 a.1).map fun b => path (b.1 ++ '/' :: b.2)

end FsIndex

namespace Client

/-- `Client::crate_prefix`. -/
def cratePrefix (name : String) : Option String :=
  match (Text.utf8 name.toList).length with
  | 0 => none
  | 1 => some "1"
  | 2 => some "2"
  | 3 => (Text.splitAt 1 name.toList).map fun a => String.ofList ("3/".toList ++ a.1)
  | _ => (Text.splitAt 2 name.toList).bind fun a =>
    (Text.splitAt 2 a.2).map fun b => String.ofList (a.1 ++ '/' :: b.1)

end Client

namespace FsIndex

open UnixPath (pieces)
open Routes (rsplitOnce)

/-- The bytes that a name may have. -/
def NameByte (b : UInt8) : Prop :=
  b ∈ Text.utf8 "abcdefghijklmnopqrstuvwxyz0123456789-_".toList

/-- The file `p` would have to be a directory for the file `q` to be there. -/
def Ancestor (p q : String) : Prop := p.toList ++ ['/'] <+: q.toList

/-! ## Bytes and characters -/

theorem isValidCrateFileNameByte_iff (b : UInt8) :
    isValidCrateFileNameByte b = true ↔ NameByte b := by
  have hall : ∀ n : Fin 256, isValidCrateFileNameByte (UInt8.ofNat n) = true ↔
      UInt8.ofNat n ∈ Text.utf8 "abcdefghijklmnopqrstuvwxyz0123456789-_".toList := by
    decide +kernel
  have hb := hall ⟨b.toNat, b.toNat_lt⟩
  rwa [UInt8.ofNat_toNat] at hb

/-- A valid character has one byte, which is valid. -/
theorem valid_char {c : Char} (h : isValidCrateFileNameChar c = true) :
    c.utf8Size = 1 ∧ ∀ b ∈ String.utf8EncodeChar c, isValidCrateFileNameByte b = true := by
  have hall : ∀ n : Fin 128, isValidCrateFileNameChar (Char.ofNat n) = true →
      (Char.ofNat n).utf8Size = 1 ∧
        ∀ b ∈ String.utf8EncodeChar (Char.ofNat n), isValidCrateFileNameByte b = true := by
    decide +kernel
  have hlt : c.toNat < 128 := by
    simp only [isValidCrateFileNameChar, Bool.or_eq_true, beq_iff_eq] at h
    rcases h with ((h | h) | rfl) | rfl
    · have hle : c.val ≤ 'z'.val := of_decide_eq_true (Bool.and_eq_true_iff.mp h).2
      exact lt_of_le_of_lt (UInt32.le_iff_toNat_le.mp hle) (by decide)
    · have hle : c.val ≤ '9'.val := of_decide_eq_true (Bool.and_eq_true_iff.mp h).2
      exact lt_of_le_of_lt (UInt32.le_iff_toNat_le.mp hle) (by decide)
    · decide
    · decide
  have hc := hall ⟨c.toNat, hlt⟩
  rw [Char.ofNat_toNat] at hc
  exact hc h

/-- A character whose bytes are valid is valid. -/
theorem valid_of_bytes {c : Char}
    (h : ∀ b ∈ String.utf8EncodeChar c, isValidCrateFileNameByte b = true) :
    isValidCrateFileNameChar c = true := by
  have hall : ∀ n : Fin 256, isValidCrateFileNameByte (UInt8.ofNat n) = true →
      (n : ℕ) < 128 ∧ isValidCrateFileNameChar (Char.ofNat n) = true := by
    decide +kernel
  cases hbytes : String.utf8EncodeChar c with
  | nil => exact absurd hbytes String.utf8EncodeChar_ne_nil
  | cons b bs =>
    have hb : b ∈ String.utf8EncodeChar c := by
      rw [hbytes]
      exact List.mem_cons_self
    have hvalid := hall ⟨b.toNat, b.toNat_lt⟩
    rw [UInt8.ofNat_toNat] at hvalid
    obtain ⟨hlt, hchar⟩ := hvalid (h b hb)
    have hmem : b ∈ Text.utf8 [c] := List.mem_flatMap.mpr ⟨c, List.mem_singleton_self c, hb⟩
    obtain ⟨d, hd, hnat⟩ := Text.mem_utf8 hlt hmem
    rw [List.mem_singleton.mp hd] at hnat
    rw [← Char.ofNat_toNat c, hnat]
    exact hchar

/-- The check of the bytes is a check of the characters. -/
theorem all_bytes_iff (cs : List Char) : (Text.utf8 cs).all isValidCrateFileNameByte = true ↔
    cs.all isValidCrateFileNameChar = true := by
  simp only [List.all_eq_true, Text.utf8, List.mem_flatMap]
  constructor
  · exact fun h c hc => valid_of_bytes fun b hb => h b ⟨c, hc, hb⟩
  · rintro h b ⟨c, hc, hb⟩
    exact (valid_char (h c hc)).2 b hb

theorem size_of_valid {cs : List Char} (h : cs.all isValidCrateFileNameChar = true) :
    ∀ c ∈ cs, c.utf8Size = 1 :=
  fun c hc => (valid_char (List.all_eq_true.mp h c hc)).1

/-- **No slice panics**, and characters may be counted for bytes. -/
theorem metaFileRelPath_eq (n : String) : metaFileRelPath n = some (crateMetaFileRelPath n) := by
  unfold metaFileRelPath crateMetaFileRelPath
  simp only
  generalize n.toList = cs
  by_cases hall : cs.all isValidCrateFileNameChar = true
  · have hsize := size_of_valid hall
    rw [(all_bytes_iff cs).mpr hall, Text.length_utf8 hsize, hall]
    by_cases hlen : 64 < cs.length
    · simp [hlen]
    · simp only [hlen, decide_false, Bool.not_true, Bool.or_self, Bool.false_eq_true, if_false]
      rcases cs with _ | ⟨a, _ | ⟨b, _ | ⟨c, _ | ⟨d, cs⟩⟩⟩⟩
      · rfl
      · rfl
      · rfl
      · rw [List.length_cons, List.length_cons, List.length_singleton,
          Text.splitAt_of_ascii hsize (by simp)]
        rfl
      · have hfour : Text.splitAt 4 (a :: b :: c :: d :: cs) = some ([a, b, c, d], cs) :=
          Text.splitAt_of_ascii hsize (by simp)
        have htwo : Text.splitAt 2 [a, b, c, d] = some ([a, b], [c, d]) :=
          Text.splitAt_of_ascii (fun e he => hsize e (List.mem_of_mem_take (i := 4) he)) (by simp)
        simp only [List.length_cons, hfour, Option.bind_some, htwo]
        rfl
  · have hbytes : (Text.utf8 cs).all isValidCrateFileNameByte = false := by
      rw [← Bool.not_eq_true, all_bytes_iff]
      exact hall
    rw [Bool.not_eq_true] at hall
    rw [hbytes, hall]
    simp

/-! ## The shape of a path -/

section Shape

variable {n path : String}

/-- What an accepted name is, and where its file is. -/
theorem relPath_eq_some : crateMetaFileRelPath n = some path ↔
    n.toList.length ≤ 64 ∧ n.toList.all isValidCrateFileNameChar = true ∧
      ∃ dir, metaDir n.toList = some dir ∧
        path = String.ofList ("index/".toList ++ (dir ++ '/' :: n.toList)) := by
  unfold crateMetaFileRelPath
  simp only
  split_ifs with h
  · refine ⟨fun e => (by cases e), ?_⟩
    rintro ⟨hlen, hall, -⟩
    rw [hall, Bool.not_true, Bool.or_false, decide_eq_true_eq] at h
    omega
  · simp only [Bool.or_eq_true, decide_eq_true_eq, Bool.not_eq_true', not_or, not_lt,
      Bool.not_eq_false] at h
    rw [Option.map_eq_some_iff]
    exact ⟨fun ⟨dir, hdir, hpath⟩ => ⟨h.1, h.2, dir, hdir, hpath.symm⟩,
      fun ⟨_, _, dir, hdir, hpath⟩ => ⟨dir, hdir, hpath.symm⟩⟩

/-- **Which names are accepted.** -/
theorem isSome_relPath (n : String) : (crateMetaFileRelPath n).isSome = true ↔
    1 ≤ (Text.utf8 n.toList).length ∧ (Text.utf8 n.toList).length ≤ 64 ∧
      ∀ b ∈ Text.utf8 n.toList, NameByte b := by
  have hbytes : (∀ b ∈ Text.utf8 n.toList, NameByte b) ↔
      n.toList.all isValidCrateFileNameChar = true := by
    rw [← all_bytes_iff, List.all_eq_true]
    exact forall₂_congr fun b _ => (isValidCrateFileNameByte_iff b).symm
  have hdir : (∃ dir, metaDir n.toList = some dir) ↔ 1 ≤ n.toList.length := by
    rcases n.toList with _ | ⟨a, _ | ⟨b, _ | ⟨c, _ | ⟨d, cs⟩⟩⟩⟩ <;> simp [metaDir]
  rw [hbytes, Option.isSome_iff_exists]
  constructor
  · rintro ⟨path, h⟩
    obtain ⟨hlen, hall, dir, hd, -⟩ := relPath_eq_some.mp h
    rw [Text.length_utf8 (size_of_valid hall)]
    exact ⟨hdir.mp ⟨dir, hd⟩, hlen, hall⟩
  · rintro ⟨hpos, hlen, hall⟩
    rw [Text.length_utf8 (size_of_valid hall)] at hpos hlen
    obtain ⟨dir, hd⟩ := hdir.mpr hpos
    exact ⟨_, relPath_eq_some.mpr ⟨hlen, hall, dir, hd, rfl⟩⟩

/-- **The client has the same directories.** -/
theorem cratePrefix_eq (h : crateMetaFileRelPath n = some path) :
    ∃ dir, Client.cratePrefix n = some dir ∧ metaDir n.toList = some dir.toList ∧
      path = "index/" ++ dir ++ "/" ++ n := by
  obtain ⟨-, hall, dir, hd, rfl⟩ := relPath_eq_some.mp h
  have hsize := size_of_valid hall
  refine ⟨String.ofList dir, ?_, by rw [String.toList_ofList]; exact hd, ?_⟩
  · unfold Client.cratePrefix
    rw [Text.length_utf8 hsize]
    generalize n.toList = cs at hd hsize
    rcases cs with _ | ⟨a, _ | ⟨b, _ | ⟨c, _ | ⟨d, cs⟩⟩⟩⟩ <;> cases hd
    · rfl
    · rfl
    · have hone : Text.splitAt 1 [a, b, c] = some ([a], [b, c]) :=
        Text.splitAt_of_ascii hsize (by simp)
      simp only [List.length_cons, List.length_nil, hone]
      rfl
    · have htwo : Text.splitAt 2 (a :: b :: c :: d :: cs) = some ([a, b], c :: d :: cs) :=
        Text.splitAt_of_ascii hsize (by simp)
      have hrest : Text.splitAt 2 (c :: d :: cs) = some ([c, d], cs) :=
        Text.splitAt_of_ascii (fun e he => hsize e (List.mem_of_mem_drop (i := 2) he)) (by simp)
      simp only [List.length_cons, htwo, Option.bind_some, hrest]
      rfl
  · apply String.toList_inj.mp
    simp

theorem notMem_of_valid {cs : List Char} (h : cs.all isValidCrateFileNameChar = true) {c : Char}
    (hc : isValidCrateFileNameChar c = false) : c ∉ cs := by
  intro hm
  rw [List.all_eq_true.mp h c hm] at hc
  cases hc

/-- The components of a directory, which are not empty. -/
theorem pieces_metaDir {cs dir : List Char} (h : cs.all isValidCrateFileNameChar = true)
    (hd : metaDir cs = some dir) : ∀ piece ∈ dir.splitOn '/', piece ≠ [] ∧ '.' ∉ piece := by
  have hslash := notMem_of_valid h (c := '/') (by decide)
  have hdot := notMem_of_valid h (c := '.') (by decide)
  rcases cs with _ | ⟨a, _ | ⟨b, _ | ⟨c, _ | ⟨d, cs⟩⟩⟩⟩ <;> cases hd
  · decide
  · decide
  · simp only [List.mem_cons, not_or] at hslash hdot
    have ha : '/' ∉ [a] := by simp; tauto
    have hsplit : ['3', '/', a].splitOn '/' = [['3'], [a]] := by
      rw [← List.splitOn_eq_singleton ha]
      exact List.splitOn_append_cons_self_of_not_mem (by decide : '/' ∉ ['3']) [a]
    rw [hsplit]
    simp only [List.mem_cons, List.not_mem_nil, or_false]
    rintro piece (rfl | rfl)
    · decide
    · exact ⟨List.cons_ne_nil _ _, by simp; tauto⟩
  · simp only [List.mem_cons, not_or] at hslash hdot
    have hab : '/' ∉ [a, b] := by simp; tauto
    have hcd : '/' ∉ [c, d] := by simp; tauto
    have hsplit : [a, b, '/', c, d].splitOn '/' = [[a, b], [c, d]] := by
      rw [← List.splitOn_eq_singleton hcd]
      exact List.splitOn_append_cons_self_of_not_mem hab [c, d]
    rw [hsplit]
    simp only [List.mem_cons, List.not_mem_nil, or_false]
    rintro piece (rfl | rfl)
    · exact ⟨List.cons_ne_nil _ _, by simp; tauto⟩
    · exact ⟨List.cons_ne_nil _ _, by simp; tauto⟩

/-- **The components of a path** are names: none is empty, and none has a dot. -/
theorem pieces_of_relPath (h : crateMetaFileRelPath n = some path) :
    ∀ piece ∈ pieces path, piece ≠ [] ∧ '.' ∉ piece := by
  obtain ⟨-, hall, dir, hd, rfl⟩ := relPath_eq_some.mp h
  have hslash := notMem_of_valid hall (c := '/') (by decide)
  have hdot := notMem_of_valid hall (c := '.') (by decide)
  have hne : n.toList ≠ [] := by
    intro hnil
    rw [hnil] at hd
    cases hd
  have hsplit : pieces (String.ofList ("index/".toList ++ (dir ++ '/' :: n.toList))) =
      "index".toList :: (dir.splitOn '/' ++ [n.toList]) := by
    unfold pieces
    rw [String.toList_ofList]
    rw [← List.splitOn_eq_singleton hslash, ← List.splitOn_append_cons_self]
    exact List.splitOn_append_cons_self_of_not_mem (by decide : '/' ∉ "index".toList) _
  rw [hsplit]
  intro piece hpiece
  rcases List.mem_cons.mp hpiece with rfl | hpiece
  · decide
  · rcases List.mem_append.mp hpiece with hpiece | hpiece
    · exact pieces_metaDir hall hd piece hpiece
    · rw [List.mem_singleton.mp hpiece]
      exact ⟨hne, hdot⟩

/-- What `rsplit_once` gives, when there is no slash behind. -/
theorem rsplitOnce_append (a : String) (hn : '/' ∉ n.toList) :
    rsplitOnce (a ++ "/" ++ n) = some (a, n) := by
  have hrev : (a ++ "/" ++ n).toList.reverse = n.toList.reverse ++ '/' :: a.toList.reverse := by
    simp
  have hword : (n.toList.reverse ++ '/' :: a.toList.reverse).takeWhile (· != '/') =
      n.toList.reverse :=
    Text.takeWhile_append_of_stops
      (fun c hc => bne_iff_ne.mpr fun e => hn (e ▸ List.mem_reverse.mp hc)) (Text.stops_cons rfl)
  unfold rsplitOnce
  simp only [hrev, hword, List.drop_left, List.reverse_reverse, String.ofList_toList]

/-- The slashes stand at the same places in two paths, so that one is not the other's directory. -/
theorem not_prefix_of_metaDir {cs ds dir dir' : List Char} (hd : metaDir cs = some dir)
    (hd' : metaDir ds = some dir') (hs : '/' ∉ cs) (hs' : '/' ∉ ds) :
    ¬ dir ++ '/' :: (cs ++ ['/']) <+: dir' ++ '/' :: ds := by
  intro h
  have hlast : ¬ cs ++ ['/'] <+: ds := fun h => hs' (h.subset (by simp))
  rcases cs with _ | ⟨a, _ | ⟨b, _ | ⟨c, _ | ⟨d, cs⟩⟩⟩⟩ <;> cases hd <;>
    rcases ds with _ | ⟨a', _ | ⟨b', _ | ⟨c', _ | ⟨d', ds⟩⟩⟩⟩ <;> cases hd' <;>
    simp_all [List.cons_prefix_cons]

/-- **No file is in the way of another one's directory.** -/
theorem not_ancestor {m n p q : String} (hp : crateMetaFileRelPath m = some p)
    (hq : crateMetaFileRelPath n = some q) : ¬ Ancestor p q := by
  obtain ⟨-, hm, dir, hd, rfl⟩ := relPath_eq_some.mp hp
  obtain ⟨-, hn, dir', hd', rfl⟩ := relPath_eq_some.mp hq
  unfold Ancestor
  simp only [String.toList_ofList, List.append_assoc, List.prefix_append_right_inj]
  have hslash := notMem_of_valid hm (by decide : isValidCrateFileNameChar '/' = false)
  have hslash' := notMem_of_valid hn (by decide : isValidCrateFileNameChar '/' = false)
  exact not_prefix_of_metaDir hd hd' hslash hslash'

end Shape

/-- **Index paths are apart and are the client's.** `crate_meta_file_rel_path` panics on no name and
accepts those of 1 to 64 bytes, all of them lowercase letters, digits, `-` or `_`. The path of an
accepted name is `index/`, the directory that the client computes, a slash and the name; no
component of it is empty, `.` or `..`, and what follows its last slash is the name. Different names
have different paths, and no path is a directory of another one. -/
theorem index_layout :
    (∀ n : String, ∃ r, metaFileRelPath n = some r ∧
      (r.isSome = true ↔ 1 ≤ (Text.utf8 n.toList).length ∧ (Text.utf8 n.toList).length ≤ 64 ∧
        ∀ b ∈ Text.utf8 n.toList, NameByte b) ∧
      ∀ path, r = some path →
        (∃ dir, Client.cratePrefix n = some dir ∧ path = "index/" ++ dir ++ "/" ++ n ∧
          rsplitOnce path = some ("index/" ++ dir, n) ∧
          rsplitOnce (dir ++ "/" ++ n) = some (dir, n)) ∧
        ∀ piece ∈ pieces path, piece ≠ [] ∧ piece ≠ ['.'] ∧ piece ≠ ['.', '.']) ∧
    ∀ m n p q, metaFileRelPath m = some (some p) → metaFileRelPath n = some (some q) →
      (m ≠ n → p ≠ q) ∧ ¬ Ancestor p q := by
  constructor
  · intro n
    refine ⟨crateMetaFileRelPath n, metaFileRelPath_eq n, isSome_relPath n, fun path h => ⟨?_, ?_⟩⟩
    · obtain ⟨dir, hdir, -, hpath⟩ := cratePrefix_eq h
      have hslash : '/' ∉ n.toList := fun hm => (crateMetaFileRelPath_eq_some h).1 '/' hm rfl
      refine ⟨dir, hdir, hpath, ?_, rsplitOnce_append dir hslash⟩
      rw [hpath]
      exact rsplitOnce_append _ hslash
    · intro piece hpiece
      obtain ⟨hne, hdot⟩ := pieces_of_relPath h piece hpiece
      refine ⟨hne, ?_, ?_⟩
      · rintro rfl
        exact hdot (by decide)
      · rintro rfl
        exact hdot (by decide)
  · intro m n p q hm hn
    rw [metaFileRelPath_eq, Option.some.injEq] at hm hn
    refine ⟨fun hne hpq => hne ?_, not_ancestor hm hn⟩
    rw [← hpq] at hn
    exact crateMetaFileRelPath_inj hm hn

/-- The crates `1` and `3ab`, whose names are those of directories. -/
theorem index_layout_digits :
    metaFileRelPath "1" = some (some "index/1/1") ∧
      metaFileRelPath "3ab" = some (some "index/3/3/3ab") ∧
      ¬ Ancestor "index/1/1" "index/3/3/3ab" := by
  have h1 : metaFileRelPath "1" = some (some "index/1/1") := by decide
  have h3 : metaFileRelPath "3ab" = some (some "index/3/3/3ab") := by decide
  exact ⟨h1, h3, (index_layout.2 _ _ _ _ h1 h3).2⟩

end FsIndex

end Freighter
