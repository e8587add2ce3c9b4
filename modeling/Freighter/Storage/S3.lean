import Freighter.Lib.Hex
import Freighter.Types.Index

/-!
# The tarballs in the bucket

A tarball is stored under a path that ends in its checksum; a download falls back to the legacy
path without it.

* `constructPaths`, `putCrate`, `deleteCrate`, `pullObject`;
* **`checksum_of_newPath`**: the path determines the checksum; `newPath_inj`, `oldPath_inj`: a name
  without dots and the version; `oldPath_ne_newPath`.
-/

namespace Freighter

namespace S3

/-- The objects of the bucket, by key. -/
abbrev Bucket : Type := String → Option Bytes

/-- The legacy path. -/
def oldPath (name version : String) : String := "crates/" ++ name ++ "-" ++ version ++ ".crate"

/-- The path with the checksum. -/
def newPath (name version : String) (tarballChecksum : Checksum) : String :=
  "crates/" ++ name ++ "-" ++ version ++ "_" ++
    String.ofList (Hex.encode tarballChecksum.toList) ++ ".tar.gz"

def constructPaths (name version : String) (tarballChecksum : Checksum) : String × String :=
  (oldPath name version, newPath name version tarballChecksum)

def pullObject (fails : Bool) (b : Bucket) (path : String) : Except StorageError Bytes :=
  if fails then .error .serviceError
  else
    match b path with
    | none => .error .notFound
    | some data => .ok data

def putObject (fails : Bool) (b : Bucket) (path : String) (data : Bytes) :
    Except StorageError Unit × Bucket :=
  if fails then (.error .serviceError, b) else (.ok (), Function.update b path (some data))

def deleteObject (fails : Bool) (b : Bucket) (path : String) : Except StorageError Unit × Bucket :=
  if fails then (.error .serviceError, b) else (.ok (), Function.update b path none)

def putCrate (fails : Bool) (b : Bucket) (name version : String) (crateBytes : Bytes)
    (tarballChecksum : Checksum) : Except StorageError Unit × Bucket :=
  putObject fails b (constructPaths name version tarballChecksum).2 crateBytes

/-- `delete_crate`: both paths; it succeeds when one of the deletes does. -/
def deleteCrate (newFails oldFails : Bool) (b : Bucket) (name version : String)
    (tarballChecksum : Checksum) : Except StorageError Unit × Bucket :=
  let (old, new) := constructPaths name version tarballChecksum
  let (res1, b) := deleteObject newFails b new
  let (res2, b) := deleteObject oldFails b old
  match res1 with
  | .ok _ => (res1, b)
  | .error _ => (res2, b)

/-- `pull_crate`: the path with the checksum, then the legacy one, whose error is not reported. -/
def pullCrate (newFails oldFails : Bool) (b : Bucket) (name version : String)
    (tarballChecksum : Checksum) : Except StorageError Bytes :=
  let (old, new) := constructPaths name version tarballChecksum
  match pullObject newFails b new with
  | .ok res => .ok res
  | .error firstErr =>
    match pullObject oldFails b old with
    | .ok res => .ok res
    | .error _ => .error firstErr

/-! ## What the paths tell -/

theorem toList_newPath (name version : String) (c : Checksum) :
    (newPath name version c).toList =
      ("crates/" ++ name ++ "-" ++ version ++ "_").toList ++
        (Hex.encode c.toList ++ ".tar.gz".toList) := by
  simp [newPath]

/-- **The path determines the checksum.** -/
theorem checksum_of_newPath {name version name' version' : String} {c c' : Checksum}
    (h : newPath name version c = newPath name' version' c') : c = c' := by
  have hlist := congrArg String.toList h
  rw [toList_newPath, toList_newPath] at hlist
  have hlen : (Hex.encode c.toList ++ ".tar.gz".toList).length =
      (Hex.encode c'.toList ++ ".tar.gz".toList).length := by
    simp
  have hsuffix := (List.append_inj' hlist hlen).2
  exact List.Vector.toList_injective (Hex.encode_injective (List.append_cancel_right hsuffix))

/-- A name without dots ends where the major version begins. -/
theorem name_of_join {name name' : String} {v w : Version} {r r' : List Char}
    (h : '.' ∉ name.toList) (h' : '.' ∉ name'.toList)
    (heq : name.toList ++ '-' :: (v.chars ++ r) = name'.toList ++ '-' :: (w.chars ++ r')) :
    name = name' := by
  have hdots : ∀ (n : String) (m : UInt64), '.' ∉ n.toList →
      ∀ c ∈ n.toList ++ '-' :: digits m, (c != '.') = true := by
    intro n m hn c hc
    rcases List.mem_append.mp hc with hc | hc
    · exact bne_iff_ne.mpr fun e => hn (e ▸ hc)
    · rcases List.mem_cons.mp hc with rfl | hc
      · rfl
      · exact bne_iff_ne.mpr fun e => absurd (e ▸ Text.isDigit_of_mem_repr hc) (by decide)
  have hdigits : ∀ (m : UInt64), ∀ c ∈ (digits m).reverse, (c != '-') = true := by
    intro m c hc
    exact bne_iff_ne.mpr fun e =>
      absurd (e ▸ Text.isDigit_of_mem_repr (List.mem_reverse.mp hc)) (by decide)
  have hstop : ∀ cs, Text.Stops (· != '.') ('.' :: cs) := fun _ => Text.stops_cons (by decide)
  have hdash : ∀ cs, Text.Stops (· != '-') ('-' :: cs) := fun _ => Text.stops_cons (by decide)
  have hsplit : ∀ (n : String) (u : Version) (t : List Char), ∃ rest,
      n.toList ++ '-' :: (u.chars ++ t) =
        (n.toList ++ '-' :: digits u.major) ++ '.' :: rest := by
    intro n u t
    refine ⟨digits u.minor ++ '.' :: (digits u.patch ++
      (optPart '-' u.pre.text ++ optPart '+' u.build.text)) ++ t, ?_⟩
    simp only [Version.chars, List.append_assoc, List.cons_append]
  obtain ⟨rest, hrest⟩ := hsplit name v r
  obtain ⟨rest', hrest'⟩ := hsplit name' w r'
  rw [hrest, hrest'] at heq
  have hfront := (Text.append_inj_of_stop (hdots name _ h) (hdots name' _ h') (hstop rest)
    (hstop rest') heq).1
  have hback := congrArg List.reverse hfront
  simp only [List.reverse_append, List.reverse_cons, List.append_assoc, List.singleton_append]
    at hback
  have hnames := (Text.append_inj_of_stop (hdigits _) (hdigits _) (hdash _) (hdash _) hback).2
  exact String.toList_inj.mp (List.reverse_injective (List.cons.inj hnames).2)

/-- A name without dots and a version, joined by a dash. -/
theorem release_of_join {name name' : String} {v w : Version} {r : List Char}
    (h : '.' ∉ name.toList) (h' : '.' ∉ name'.toList)
    (heq : name.toList ++ '-' :: (v.chars ++ r) = name'.toList ++ '-' :: (w.chars ++ r)) :
    name = name' ∧ v = w := by
  have hname := name_of_join h h' heq
  subst hname
  have hversion := (List.cons.inj (List.append_cancel_left heq)).2
  exact ⟨rfl, Version.chars_injective (List.append_cancel_right hversion)⟩

/-- **The path determines the name**, when it has no dot, and the version. -/
theorem newPath_inj {name name' : String} {v w : Version} {c c' : Checksum}
    (h : '.' ∉ name.toList) (h' : '.' ∉ name'.toList)
    (heq : newPath name v.display c = newPath name' w.display c') : name = name' ∧ v = w := by
  have hlist := congrArg String.toList heq
  rw [toList_newPath, toList_newPath, checksum_of_newPath heq] at hlist
  have hfront := List.append_cancel_right hlist
  simp only [String.toList_append, Version.display, String.toList_ofList,
    List.append_assoc] at hfront
  exact release_of_join h h' (List.append_cancel_left hfront)

/-- **So does the legacy path.** -/
theorem oldPath_inj {name name' : String} {v w : Version}
    (h : '.' ∉ name.toList) (h' : '.' ∉ name'.toList)
    (heq : oldPath name v.display = oldPath name' w.display) : name = name' ∧ v = w := by
  have hlist := congrArg String.toList heq
  simp only [oldPath, Version.display, String.toList_append, String.toList_ofList,
    List.append_assoc] at hlist
  exact release_of_join h h' (List.append_cancel_left hlist)

theorem getLast?_oldPath (name version : String) :
    (oldPath name version).toList.getLast? = some 'e' := by
  unfold oldPath
  rw [String.toList_append, List.getLast?_append]
  rfl

theorem getLast?_newPath (name version : String) (c : Checksum) :
    (newPath name version c).toList.getLast? = some 'z' := by
  unfold newPath
  rw [String.toList_append, List.getLast?_append]
  rfl

/-- A legacy path is not a path with a checksum. -/
theorem oldPath_ne_newPath (name version name' version' : String) (c : Checksum) :
    oldPath name version ≠ newPath name' version' c := by
  intro h
  have hlast := congrArg (fun s => s.toList.getLast?) h
  simp only [getLast?_oldPath, getLast?_newPath, Option.some.injEq] at hlast
  exact absurd hlast (by decide)

section Bucket

variable {newFails oldFails : Bool} {b : Bucket} {name version path : String} {c : Checksum}

/-- What the deletes leave. -/
theorem deleteCrate_apply : (deleteCrate newFails oldFails b name version c).2 path =
    if oldFails = false ∧ path = oldPath name version ∨
      newFails = false ∧ path = newPath name version c then none else b path := by
  cases newFails <;> cases oldFails <;>
    simp [deleteCrate, deleteObject, constructPaths, Function.update_apply, ite_or]

theorem deleteCrate_self :
    (deleteCrate false oldFails b name version c).2 (newPath name version c) = none := by
  rw [deleteCrate_apply, if_pos (Or.inr ⟨rfl, rfl⟩)]

/-- The deletes take nothing but the object of the checksum and the legacy object. -/
theorem deleteCrate_newPath {name' version' : String} {c' : Checksum}
    (h : newFails = false → newPath name' version' c' ≠ newPath name version c) :
    (deleteCrate newFails oldFails b name version c).2 (newPath name' version' c') =
      b (newPath name' version' c') := by
  rw [deleteCrate_apply, if_neg]
  rintro (⟨-, hold⟩ | ⟨hnew, hpath⟩)
  · exact oldPath_ne_newPath name version name' version' c' hold.symm
  · exact h hnew hpath

theorem deleteCrate_eq_some {data : Bytes}
    (h : (deleteCrate newFails oldFails b name version c).2 path = some data) :
    b path = some data := by
  rw [deleteCrate_apply] at h
  split_ifs at h
  exact h

end Bucket

end S3

end Freighter
