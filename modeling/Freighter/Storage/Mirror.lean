import Freighter.Storage.Fs

/-!
# A disk as a map

Where no key of a family is a directory of another, the filesystem store is a map from the keys of
the family to their files.

* `putFileFails`: a put that fails on its way;
* `Mirrors`: the files of the family are those of the map, and nothing is in their way;
* **`Mirrors.pullFile`**, **`Mirrors.putFile`**, **`Mirrors.putFileFails`**: what the operations do
  to the map; `Within`: they touch nothing but the files and the directories of the family.
-/

namespace Freighter

namespace FsStorage

open FileTree UnixPath

/-- A put that fails when `n` components of the directory of its file are there. -/
def putFileFails (root : String) (n : ℕ) (fs : Disk Bytes) (path : String) :
    Except StorageError Unit × Disk Bytes :=
  match absPath root path with
  | .error e => (.error e, fs)
  | .ok path =>
    match parent path with
    | none => (.error .serviceError, fs)
    | some parent => (.error .serviceError, (fs.createDirs fs.cwd (parent.take n)).2)

/-- A family of keys, none of which is a directory of another. -/
structure Family where
  Mem : Key → Prop
  apart : ∀ k k', Mem k → Mem k' → k.names <+: k'.names → k = k'

/-- The files of the family are those of the map, and nothing is in their way. -/
structure Mirrors (K : Family) (root : String) (base : Location) (fs : Disk Bytes)
    (files : Key → Option Bytes) : Prop where
  rooted : Rooted root fs base
  file : ∀ k, K.Mem k → ∀ bytes,
    fs.nodes.lookup (base ++ k.names) = some (.file bytes) ↔ files k = some bytes
  notDir : ∀ k, K.Mem k → ¬ fs.IsDir (base ++ k.names)
  clear : ∀ k, K.Mem k → ∀ q, q <+: k.names → q ≠ k.names → base ++ q ∈ fs.nodes →
    fs.IsDir (base ++ q)

/-- The files and the directories of the family. -/
def Family.Touches (K : Family) (base loc : Location) : Prop :=
  ∃ k, K.Mem k ∧ ∃ q, q <+: k.names ∧ loc = base ++ q

/-- What is not of the family is as it was. -/
def Within (K : Family) (base : Location) (fs fs' : Disk Bytes) : Prop :=
  ∀ loc, ¬ K.Touches base loc → fs'.nodes.lookup loc = fs.nodes.lookup loc

theorem within_refl (K : Family) (base : Location) (fs : Disk Bytes) : Within K base fs fs :=
  fun _ _ => rfl

theorem Within.trans {K : Family} {base : Location} {fs₁ fs₂ fs₃ : Disk Bytes}
    (h : Within K base fs₁ fs₂) (h' : Within K base fs₂ fs₃) : Within K base fs₁ fs₃ :=
  fun loc hloc => (h' loc hloc).trans (h loc hloc)

section Operations

variable {K : Family} {root : String} {base : Location} {fs fs' : Disk Bytes}
  {files : Key → Option Bytes} {k : Key}

/-! ## Reading -/

/-- Where a name on the way is missing, the walk finds nothing. -/
theorem walk_missing {loc : Location} {names : List String}
    (hclear : ∀ q, q <+: names → q ≠ names → loc ++ q ∈ fs.nodes → fs.IsDir (loc ++ q)) :
    fs.walk loc (names.map .normal) = .ok (loc ++ names) ∨
      fs.walk loc (names.map .normal) = .error .notFound := by
  induction names generalizing loc with
  | nil =>
    left
    rw [List.append_nil]
    rfl
  | cons n names ih =>
    rw [List.map_cons, Disk.walk]
    split_ifs with hd
    · have hrest := @ih (loc ++ [n]) fun q hq hne hmem => by
        rw [List.append_assoc, List.singleton_append] at hmem ⊢
        exact hclear (n :: q) (List.cons_prefix_cons.mpr ⟨rfl, hq⟩)
          (fun e => hne (List.cons.inj e).2) hmem
      rwa [List.append_assoc, List.singleton_append] at hrest
    · right
      have hnot : loc ∉ fs.nodes := by
        intro hmem
        have hdir := hclear [] List.nil_prefix (List.cons_ne_nil n names).symm
        rw [List.append_nil] at hdir
        exact hd (hdir hmem)
      rw [Disk.notDir, if_neg hnot]

theorem Mirrors.pullFile (h : Mirrors K root base fs files) (hk : K.Mem k) :
    FsStorage.pullFile root fs k.text =
      match files k with
      | some bytes => .ok bytes
      | none => .error .notFound := by
  cases hfile : files k with
  | some bytes => exact pullFile_key h.rooted ((h.file k hk bytes).mpr hfile)
  | none =>
    unfold FsStorage.pullFile Disk.read
    rw [h.rooted.locate k]
    rcases walk_missing (h.clear k hk) with hwalk | hwalk
    · rw [hwalk]
      cases hnode : fs.nodes.lookup (base ++ k.names) with
      | none => simp only [hnode]; rfl
      | some node =>
        cases node with
        | dir => exact absurd hnode (h.notDir k hk)
        | file bytes =>
          rw [(h.file k hk bytes).mp hnode] at hfile
          cases hfile
    · rw [hwalk]
      rfl

/-! ## Writing -/

/-- **A put.** -/
theorem Mirrors.putFile (h : Mirrors K root base fs files) (hk : K.Mem k) (bytes : Bytes) :
    ∃ fs', FsStorage.putFile root fs k.text bytes = (.ok (), fs') ∧
      Mirrors K root base fs' (Function.update files k (some bytes)) ∧ Within K base fs fs' := by
  obtain ⟨fs', hput, hplaced⟩ := putFile_key h.rooted (h.clear k hk) (h.notDir k hk) bytes
  have hsame : ∀ k', K.Mem k' → k' ≠ k →
      fs'.nodes.lookup (base ++ k'.names) = fs.nodes.lookup (base ++ k'.names) := fun k' hk' hne =>
    hplaced.below fun hq => hne (K.apart k' k hk' hk hq)
  refine ⟨fs', hput, ⟨h.rooted.keeps hplaced.keeps, ?_, ?_, ?_⟩, ?_⟩
  · intro k' hk' b
    rcases eq_or_ne k' k with rfl | hne
    · rw [hplaced.file, Function.update_self]
      simp
    · rw [hsame k' hk' hne, Function.update_of_ne hne]
      exact h.file k' hk' b
  · intro k' hk' hd
    rcases eq_or_ne k' k with rfl | hne
    · exact nomatch hplaced.file.symm.trans hd
    · exact h.notDir k' hk' ((hsame k' hk' hne).symm.trans hd)
  · intro k' hk' q hq hne hmem
    by_cases hqk : q <+: k.names
    · rcases eq_or_ne q k.names with rfl | hne'
      · exact absurd (congrArg Key.names (K.apart k k' hk hk' hq)) hne
      · exact hplaced.dirs q hqk hne'
    · have hlookup := hplaced.below hqk
      have hmem' : base ++ q ∈ fs.nodes := by
        rwa [← AList.lookup_isSome, ← hlookup, AList.lookup_isSome]
      exact hlookup.trans (h.clear k' hk' q hq hne hmem')
  · intro loc hloc
    exact hplaced.other loc fun q hq e => hloc ⟨k, hk, q, hq, e⟩

/-- What a part of a put makes of the tree: some directories of the key. -/
structure Prepared (base : Location) (k : Key) (fs fs' : Disk Bytes) : Prop where
  keeps : fs.Keeps fs'
  dirs : ∀ q, q <+: k.names → q ≠ k.names →
    fs'.nodes.lookup (base ++ q) = fs.nodes.lookup (base ++ q) ∨ fs'.IsDir (base ++ q)
  other : ∀ l, (∀ q, q <+: k.names → q ≠ k.names → l ≠ base ++ q) →
    fs'.nodes.lookup l = fs.nodes.lookup l

theorem Prepared.below (h : Prepared base k fs fs') {q : Location}
    (hq : ¬ (q <+: k.names ∧ q ≠ k.names)) :
    fs'.nodes.lookup (base ++ q) = fs.nodes.lookup (base ++ q) := by
  refine h.other _ fun q' hq' hne e => hq ?_
  rw [List.append_cancel_left e]
  exact ⟨hq', hne⟩

/-- Directories of a key do not change the map. -/
theorem Mirrors.prepared (h : Mirrors K root base fs files) (hk : K.Mem k)
    (hp : Prepared base k fs fs') : Mirrors K root base fs' files := by
  have hsame : ∀ k', K.Mem k' →
      fs'.nodes.lookup (base ++ k'.names) = fs.nodes.lookup (base ++ k'.names) := fun k' hk' =>
    hp.below fun ⟨hq, hne⟩ => hne (congrArg Key.names (K.apart k' k hk' hk hq))
  refine ⟨h.rooted.keeps hp.keeps, fun k' hk' b => ?_, fun k' hk' hd => ?_,
    fun k' hk' q hq hne hmem => ?_⟩
  · rw [hsame k' hk']
    exact h.file k' hk' b
  · exact h.notDir k' hk' ((hsame k' hk').symm.trans hd)
  · have hclear : fs'.nodes.lookup (base ++ q) = fs.nodes.lookup (base ++ q) →
        fs'.IsDir (base ++ q) := fun hlookup => by
      have hmem' : base ++ q ∈ fs.nodes := by
        rwa [← AList.lookup_isSome, ← hlookup, AList.lookup_isSome]
      exact hlookup.trans (h.clear k' hk' q hq hne hmem')
    by_cases hqk : q <+: k.names ∧ q ≠ k.names
    · exact (hp.dirs q hqk.1 hqk.2).elim hclear id
    · exact hclear (hp.below hqk)

theorem prepared_refl (base : Location) (k : Key) (fs : Disk Bytes) : Prepared base k fs fs :=
  ⟨Disk.Keeps.refl fs, fun _ _ _ => Or.inl rfl, fun _ _ => rfl⟩

/-- A part of the directories of the root is there already. -/
theorem Rooted.createDirs_take (h : Rooted root fs base) (n : ℕ) :
    ∃ l, fs.createDirs fs.cwd ((components root).take n) = (.ok l, fs) := by
  have hwalk := h.walk
  rw [← List.take_append_drop n (components root), Disk.walk_append] at hwalk
  cases hl : fs.walk fs.cwd ((components root).take n) with
  | error e =>
    rw [hl] at hwalk
    cases hwalk
  | ok l =>
    rw [hl] at hwalk
    exact ⟨l, Disk.createDirs_of_walk hl (Disk.isDir_of_walk hwalk h.dir)⟩

/-- What is there after a part of the directories of a key. -/
theorem Mirrors.createDirs_take (h : Mirrors K root base fs files) (hk : K.Mem k) (n : ℕ) :
    Prepared base k fs (fs.createDirs fs.cwd
      ((components root ++ k.names.dropLast.map Component.normal).take n)).2 := by
  rw [List.take_append]
  rcases le_total n (components root).length with hn | hn
  · obtain ⟨l, hl⟩ := h.rooted.createDirs_take n
    rw [Nat.sub_eq_zero_of_le hn, List.take_zero, List.append_nil, hl]
    exact prepared_refl base k fs
  · rw [List.take_of_length_le hn, Disk.createDirs_append,
      Disk.createDirs_of_walk h.rooted.walk h.rooted.dir]
    have hsub : ∀ q, q <+: k.names.dropLast.take (n - (components root).length) →
        q <+: k.names ∧ q ≠ k.names := fun q hq =>
      prefix_dropLast_iff.mp (hq.trans (List.take_prefix _ _))
    have hclear : ∀ q, q <+: k.names.dropLast.take (n - (components root).length) →
        base ++ q ∈ fs.nodes → fs.IsDir (base ++ q) := fun q hq =>
      h.clear k hk q (hsub q hq).1 (hsub q hq).2
    obtain ⟨fs', hmk, hkeeps, hdirs, hother⟩ := Disk.createDirs_normal h.rooted.dir hclear
    rw [List.map_take] at hmk
    simp only [hmk]
    refine ⟨hkeeps, fun q hq hne => ?_, fun l hl => ?_⟩
    · by_cases hq' : q <+: k.names.dropLast.take (n - (components root).length)
      · exact Or.inr (hdirs q hq')
      · exact Or.inl (hother _ fun q'' hq'' e => hq' ((List.append_cancel_left e).symm ▸ hq''))
    · exact hother l fun q hq => hl q (hsub q hq).1 (hsub q hq).2

/-- **A put that fails.** -/
theorem Mirrors.putFileFails (h : Mirrors K root base fs files) (hk : K.Mem k) (n : ℕ) :
    ∃ fs', FsStorage.putFileFails root n fs k.text = (.error .serviceError, fs') ∧
      Mirrors K root base fs' files ∧ Within K base fs fs' := by
  have hprepared := h.createDirs_take hk n
  have hdir : parent (join root k.text) =
      some (components root ++ k.names.dropLast.map .normal) := by
    rw [join_text]
    exact parent_joins k.nonempty k.plain
  refine ⟨_, ?_, h.prepared hk hprepared, fun loc hloc => ?_⟩
  · simp only [FsStorage.putFileFails, absPath_of_relative (isAbsolute_text k) root, hdir]
  · exact hprepared.other loc fun q hq _ e => hloc ⟨k, hk, q, hq, e⟩

end Operations

end FsStorage

end Freighter
