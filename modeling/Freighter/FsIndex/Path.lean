import Freighter.Lib.Text
import Freighter.Types.Index

/-!
# The index file of a crate

Crates whose names differ in the case of letters only share an index file and a lock: `key` is the
lowercase name, `relPath` the path of the file.

* `crateMetaFileRelPath`, `accessCrate`;
* **`relPath_inj`**: two keys do not share a file.
-/

namespace Freighter

namespace FsIndex

def isValidCrateFileNameChar (c : Char) : Bool :=
  c.isLower || c.isDigit || c == '-' || c == '_'

/-- The directory of the file, by the length of the name. -/
def metaDir : List Char → Option (List Char)
  | [] => none
  | [_] => some ['1']
  | [_, _] => some ['2']
  | [a, _, _] => some ['3', '/', a]
  | a :: b :: c :: d :: _ => some [a, b, '/', c, d]

/-- `crate_meta_file_rel_path`. Only ASCII names pass the check, so that characters can be counted
for bytes. -/
def crateMetaFileRelPath (lcCrateName : String) : Option String :=
  let name := lcCrateName.toList
  if 64 < name.length || !name.all isValidCrateFileNameChar then none
  else (metaDir name).map fun dir => String.ofList ("index/".toList ++ (dir ++ '/' :: name))

/-- A crate's key and the path of its file. -/
structure CrateMetaPath where
  key : String
  relPath : String
deriving DecidableEq

def accessCrate (crateName : String) : Except IndexError CrateMetaPath :=
  match crateMetaFileRelPath (toAsciiLowercase crateName) with
  | some relPath => .ok ⟨toAsciiLowercase crateName, relPath⟩
  | none => .error .crateNameNotAllowed

example : accessCrate "Serde" = .ok ⟨"serde", "index/se/rd/serde"⟩ := by decide

/-! ## Files and keys -/

theorem crateMetaFileRelPath_eq_some {s p : String} (h : crateMetaFileRelPath s = some p) :
    (∀ c ∈ s.toList, c ≠ '/') ∧ ∃ pre, p.toList = pre ++ '/' :: s.toList := by
  simp only [crateMetaFileRelPath] at h
  split_ifs at h with hv
  obtain ⟨dir, -, rfl⟩ := Option.map_eq_some_iff.mp h
  constructor
  · rintro c hc rfl
    have hall : s.toList.all isValidCrateFileNameChar = true := by
      simp only [Bool.or_eq_true, Bool.not_eq_true', not_or, Bool.not_eq_false] at hv
      exact hv.2
    exact absurd (List.all_eq_true.mp hall _ hc) (by decide)
  · exact ⟨"index/".toList ++ dir, by rw [String.toList_ofList, List.append_assoc]⟩

/-- The name is what follows the last slash of the path. -/
theorem crateMetaFileRelPath_inj {s t p : String} (hs : crateMetaFileRelPath s = some p)
    (ht : crateMetaFileRelPath t = some p) : s = t := by
  obtain ⟨hs1, pre, hs2⟩ := crateMetaFileRelPath_eq_some hs
  obtain ⟨ht1, pre', ht2⟩ := crateMetaFileRelPath_eq_some ht
  have hrev : s.toList.reverse ++ '/' :: pre.reverse = t.toList.reverse ++ '/' :: pre'.reverse := by
    have := congrArg List.reverse (hs2.symm.trans ht2)
    simpa using this
  have hne : ∀ u : String, (∀ c ∈ u.toList, c ≠ '/') →
      ∀ c ∈ u.toList.reverse, (c != '/') = true := fun u hu c hc => by
    simpa using hu c (List.mem_reverse.mp hc)
  have hstop : ∀ r, Text.Stops (· != '/') ('/' :: r) := fun r => Text.stops_cons (by decide)
  have := (Text.append_inj_of_stop (hne s hs1) (hne t ht1) (hstop _) (hstop _) hrev).1
  exact String.toList_inj.mp (List.reverse_injective this)

theorem accessCrate_eq_ok {crateName : String} {m : CrateMetaPath} :
    accessCrate crateName = .ok m ↔
      m.key = toAsciiLowercase crateName ∧ crateMetaFileRelPath m.key = some m.relPath := by
  obtain ⟨key, relPath⟩ := m
  unfold accessCrate
  cases h : crateMetaFileRelPath (toAsciiLowercase crateName) with
  | none =>
    constructor
    · intro e
      cases e
    · rintro ⟨rfl, h'⟩
      rw [h] at h'
      cases h'
  | some p =>
    constructor
    · intro e
      cases e
      exact ⟨rfl, h⟩
    · rintro ⟨rfl, h'⟩
      rw [h] at h'
      cases h'
      rfl

/-- An allowed name has no dots. -/
theorem dot_notMem_of_accessCrate {name : String} {m : CrateMetaPath}
    (h : accessCrate name = .ok m) : '.' ∉ name.toList := by
  obtain ⟨hkey, hpath⟩ := accessCrate_eq_ok.mp h
  simp only [crateMetaFileRelPath] at hpath
  split_ifs at hpath with hv
  intro hdot
  have hlower : '.' ∈ m.key.toList := by
    rw [hkey, toAsciiLowercase, String.toList_ofList]
    exact List.mem_map.mpr ⟨'.', hdot, by decide⟩
  simp only [Bool.or_eq_true, Bool.not_eq_true', not_or, Bool.not_eq_false] at hv
  exact absurd (List.all_eq_true.mp hv.2 _ hlower) (by decide)

/-- **Two keys do not share a file.** -/
theorem relPath_inj {a b : String} {m n : CrateMetaPath} (ha : accessCrate a = .ok m)
    (hb : accessCrate b = .ok n) (h : m.relPath = n.relPath) : m = n := by
  obtain ⟨-, hm⟩ := accessCrate_eq_ok.mp ha
  obtain ⟨-, hn⟩ := accessCrate_eq_ok.mp hb
  obtain ⟨key, relPath⟩ := m
  obtain ⟨key', relPath'⟩ := n
  cases h
  cases crateMetaFileRelPath_inj hm hn
  rfl

end FsIndex

end Freighter
