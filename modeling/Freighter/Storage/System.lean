import Freighter.Lib.Transaction
import Freighter.Storage.Fs

/-!
# The filesystem store over any operating system

* `System`: the calls that the store makes, whatever they do; `createDirAllOn`: `create_dir_all` by
  its calls; `pullFileOn`, `putFileOn`, `listPrefixOn`, `deleteFileOn`: the operations.
* `disk`: a tree as a system. Over it the operations are those of the store (`putFileOn_disk` and
  the others), and `create_dir_all` makes what is missing (**`createDirAllOn_disk`**).
* `Stands`: what a system promises where the root is a directory; **`stands_disk`**: a tree does.
-/

namespace Freighter

namespace FsStorage

open FileTree UnixPath

/-! ## The operations over any system -/

/-- What an entry of a directory is called. -/
abbrev Name : Type := {name : String // Plain name}

/-- The calls that the store makes, each with the path that it is made at. -/
structure System (σ : Type) where
  read : String → Tx σ IoError Bytes
  pathExists : List Component → σ → Bool
  isDir : List Component → σ → Bool
  mkdir : List Component → Tx σ IoError Unit
  tempIn : List Component → Tx σ IoError Unit
  persist : String → Bytes → Tx σ IoError Unit
  readDir : String → Tx σ IoError (List (Name × Bool))
  remove : String → Tx σ IoError Unit

variable {σ : Type}

/-- A failed `mkdir` is none where the directory is there. -/
def mkdirOn (S : System σ) (path : List Component) : Tx σ IoError Unit := fun s =>
  match S.mkdir path s with
  | (.ok (), s) => (.ok (), s)
  | (.error e, s) => if S.isDir path s then (.ok (), s) else (.error e, s)

/-- `std::fs::create_dir_all`, of the components from the last to the first. The path comes first;
where its own directory is missing, that is made before. -/
def createDirAllOn (S : System σ) : List Component → Tx σ IoError Unit
  | [] => Tx.answer ()
  | c :: up => fun s =>
    match S.mkdir (c :: up).reverse s with
    | (.ok (), s) => (.ok (), s)
    | (.error .notFound, s) =>
      (do createDirAllOn S up; mkdirOn S (c :: up).reverse : Tx σ IoError Unit) s
    | (.error .other, s) =>
      if S.isDir (c :: up).reverse s then (.ok (), s) else (.error .other, s)

/-- `if !parent.exists() { create_dir_all(parent)?; }`. -/
def createParentOn (S : System σ) (parent : List Component) : Tx σ IoError Unit := fun s =>
  if S.pathExists parent s then (.ok (), s) else createDirAllOn S parent.reverse s

/-- What `put_file` does before the file is in its place. -/
def tempFileOn (S : System σ) (parent : List Component) : Tx σ IoError Unit := do
  createParentOn S parent
  S.tempIn parent

section Steps

variable {S : System σ} {path : List Component} {c : Component} {s s' : σ}

theorem createDirAllOn_missing (h : S.mkdir (path ++ [c]) s = (.error .notFound, s')) :
    createDirAllOn S (path ++ [c]).reverse s =
      (createDirAllOn S path.reverse >>= fun _ => mkdirOn S (path ++ [c])) s' := by
  rw [List.reverse_append, List.reverse_singleton, List.singleton_append]
  simp only [createDirAllOn, List.reverse_cons, List.reverse_reverse, h]

theorem createDirAllOn_of_ne (h : (S.mkdir (path ++ [c]) s).1 ≠ .error .notFound) :
    createDirAllOn S (path ++ [c]).reverse s = mkdirOn S (path ++ [c]) s := by
  rw [List.reverse_append, List.reverse_singleton, List.singleton_append]
  simp only [createDirAllOn, mkdirOn, List.reverse_cons, List.reverse_reverse]
  cases hmk : S.mkdir (path ++ [c]) s with
  | mk r s' =>
    cases r with
    | ok _ => rfl
    | error e =>
      cases e with
      | other => rfl
      | notFound => exact absurd (by rw [hmk]) h

end Steps

def pullFileOn (S : System σ) (root path : String) : Tx σ StorageError Bytes :=
  (S.read (join root path)).mapError ofIoError

def putFileOn (S : System σ) (root path : String) (fileBytes : Bytes) : Tx σ StorageError Unit :=
  match absPath root path with
  | .error e => Tx.fail e
  | .ok path =>
    match parent path with
    -- the `unwrap` panics
    | none => Tx.fail .serviceError
    | some parent => do
      (tempFileOn S parent).mapError ofIoError
      (S.persist path fileBytes).mapError fun _ => .serviceError

/-- `append_dir`; `fuel` bounds the depth of the tree. -/
def appendDirOn (S : System σ) : ℕ → String → List String → Tx σ StorageError (List String)
  | 0, _, _ => Tx.fail .serviceError
  | fuel + 1, path, out => do
    let entries ← (S.readDir path).mapError ofIoError
    entries.foldlM (fun out e => do
      let out ← if e.2 then appendDirOn S fuel (join path e.1) out else Tx.answer out
      Tx.answer (out ++ [join path e.1])) out

def listPrefixOn (S : System σ) (fuel : ℕ) (root path : String) :
    Tx σ StorageError (List String) :=
  match absPath root path with
  | .error e => Tx.fail e
  | .ok start => appendDirOn S fuel start []

def deleteFileOn (S : System σ) (root path : String) : Tx σ StorageError Unit :=
  match absPath root path with
  | .error e => Tx.fail e
  | .ok path => (S.remove path).mapError ofIoError

/-! ## Over a tree -/

section Disk

variable (order : Disk.Order)

/-- The names that may be those of entries. -/
def names (entries : List (String × Bool)) : List (Name × Bool) :=
  entries.filterMap fun e => if h : Plain e.1 then some (⟨e.1, h⟩, e.2) else none

/-- The tree as a system; files under temporary names are left out. The empty path leads nowhere. -/
def disk : System (Disk Bytes) where
  read path fs := (fs.read path, fs)
  pathExists path fs := path ≠ [] && (fs.stat path).isSome
  isDir path fs := (fs.stat path).any Node.isDir
  mkdir path fs := fs.mkdir path
  tempIn dir fs := (if (fs.stat dir).any Node.isDir then .ok () else .error .other, fs)
  persist path fileBytes fs := fs.write path fileBytes
  readDir path fs := ((fs.readDir order path).map names, fs)
  remove path fs := fs.remove path

variable {order} {root path : String} {fs fs' : Disk Bytes}

theorem stat_of_walk {cs : List Component} {l : Location} (h : fs.walk fs.cwd cs = .ok l) :
    fs.stat cs = fs.nodes.lookup l := by
  simp only [Disk.stat, h]

theorem isDir_disk {cs : List Component} {l : Location} (h : fs.walk fs.cwd cs = .ok l) :
    (disk order).isDir cs fs = true ↔ fs.IsDir l := by
  simp only [disk, stat_of_walk h, Disk.IsDir]
  cases fs.nodes.lookup l with
  | none => simp
  | some node => cases node <;> simp [Node.isDir]

theorem isDir_disk_error {cs : List Component} {e : IoError}
    (h : fs.walk fs.cwd cs = .error e) : (disk order).isDir cs fs = false := by
  simp only [disk, Disk.stat, h]
  rfl

/-- `mkdir` and the test after it, in a directory that is there. -/
theorem mkdirOn_disk {cs : List Component} {c : Component} {l : Location}
    (h : fs.walk fs.cwd cs = .ok l) (hl : fs.IsDir l) : mkdirOn (disk order) (cs ++ [c]) fs =
      ((fs.createDirs l [c]).1.map fun _ => (), (fs.createDirs l [c]).2) := by
  have hwalk : fs.walk fs.cwd (cs ++ [c]) = .ok (Disk.next l c) := by
    rw [Disk.walk_concat, h]
    exact if_pos hl
  have hdir : (disk order).isDir (cs ++ [c]) fs = true ↔ _ := isDir_disk hwalk
  have hmk : (disk order).mkdir (cs ++ [c]) fs = fs.mkdir (cs ++ [c]) := rfl
  unfold mkdirOn
  rcases Disk.mkdir_concat (c := c) h hl with ⟨hn, he, hc⟩ | ⟨-, d', he, hc⟩ | ⟨hn, he, hc⟩
  · rw [hmk, he, hc]
    exact if_pos (hdir.mpr hn)
  · rw [hmk, he, hc]
    rfl
  · rw [hmk, he, hc]
    exact if_neg fun hd => hn (hdir.mp hd)

/-- **`create_dir_all` makes the directories that are missing**, along the path. -/
theorem createDirAllOn_disk (cs : List Component) (fs : Disk Bytes) :
    createDirAllOn (disk order) cs.reverse fs =
      ((fs.createDirs fs.cwd cs).1.map fun _ => (), (fs.createDirs fs.cwd cs).2) := by
  induction cs using List.reverseRecOn with
  | nil => rfl
  | append_singleton cs c ih =>
    have hmk : (disk order).mkdir (cs ++ [c]) fs = fs.mkdir (cs ++ [c]) := rfl
    rw [Disk.createDirs_append]
    cases hend : fs.walk fs.cwd (cs ++ [c]) with
    | ok loc =>
      -- The directory is there, and `mkdir` is all.
      obtain ⟨l, hl, hdir⟩ := Disk.exists_walk_of_concat hend
      rw [Disk.createDirs_of_walk hl hdir, createDirAllOn_of_ne, mkdirOn_disk hl hdir]
      rw [hmk]
      rcases Disk.mkdir_concat (c := c) hl hdir with ⟨-, he, -⟩ | ⟨-, d', he, -⟩ | ⟨-, he, -⟩ <;>
        simp [he]
    | error e =>
      cases e with
      | other =>
        -- There is a file on the way.
        rw [Disk.createDirs_of_walk_other fs.working hend, createDirAllOn_of_ne]
        · simp only [mkdirOn, hmk, Disk.mkdir_of_walk_error hend, isDir_disk_error hend,
            Bool.false_eq_true, if_false]
          rfl
        · rw [hmk, Disk.mkdir_of_walk_error hend]
          simp
      | notFound =>
        rw [createDirAllOn_missing (hmk.trans (Disk.mkdir_of_walk_error hend))]
        cases hup : fs.createDirs fs.cwd cs with
        | mk r fs' =>
          rw [hup] at ih
          cases r with
          | error e => exact Tx.bind_of_error ih
          | ok l =>
            obtain ⟨hkeep, hdir, hl⟩ := Disk.createDirs_ok fs.working hup
            rw [Tx.bind_of_ok ih]
            exact mkdirOn_disk (hkeep.cwd ▸ hl) hdir

/-- The directory of a new file is made, and there unless that fails. -/
theorem tempFileOn_disk (dir : List Component) (fs : Disk Bytes) : tempFileOn (disk order) dir fs =
    ((fs.createDirs fs.cwd dir).1.map fun _ => (), (fs.createDirs fs.cwd dir).2) := by
  have htemp : ∀ fs', (disk order).tempIn dir fs' =
      (if (disk order).isDir dir fs' = true then .ok () else .error .other, fs') := fun _ => rfl
  unfold tempFileOn
  cases hex : (disk order).pathExists dir fs with
  | true =>
    have hparent : createParentOn (disk order) dir fs = (.ok (), fs) := if_pos hex
    rw [Tx.bind_of_ok hparent, htemp]
    simp only [disk, Disk.stat, ne_eq, Bool.and_eq_true, decide_eq_true_eq] at hex
    cases hw : fs.walk fs.cwd dir with
    | error e => simp [hw] at hex
    | ok l =>
      simp only [hw] at hex
      by_cases hl : fs.IsDir l
      · rw [if_pos ((isDir_disk hw).mpr hl), Disk.createDirs_of_walk hw hl]
        rfl
      · have hfile : fs.walk fs.cwd (dir ++ [.curDir]) = .error .other := by
          rw [Disk.walk_concat, hw]
          change (if fs.IsDir l then _ else _) = _
          rw [if_neg hl, Disk.notDir, if_pos (AList.lookup_isSome.mp hex.2)]
        rw [if_neg fun h => hl ((isDir_disk hw).mp h),
          Disk.createDirs_of_walk_other fs.working hfile]
        rfl
  | false =>
    have hparent : createParentOn (disk order) dir fs =
        createDirAllOn (disk order) dir.reverse fs :=
      if_neg (by rw [hex]; exact Bool.false_ne_true)
    rw [createDirAllOn_disk] at hparent
    cases hmk : fs.createDirs fs.cwd dir with
    | mk r fs' =>
      rw [hmk] at hparent
      cases r with
      | error e => exact Tx.bind_of_error hparent
      | ok l =>
        obtain ⟨hkeep, hdir, hl⟩ := Disk.createDirs_ok fs.working hmk
        rw [Tx.bind_of_ok hparent, htemp, if_pos ((isDir_disk (hkeep.cwd ▸ hl)).mpr hdir)]
        rfl

theorem pullFileOn_disk (root path : String) (fs : Disk Bytes) :
    pullFileOn (disk order) root path fs = (pullFile root fs path, fs) :=
  Tx.mapError_apply _ _ _

theorem deleteFileOn_disk (root path : String) (fs : Disk Bytes) :
    deleteFileOn (disk order) root path fs = deleteFile root fs path := by
  unfold deleteFileOn deleteFile
  cases absPath root path with
  | error e => rfl
  | ok path => exact Tx.mapError_apply _ _ _

theorem putFileOn_disk (root path : String) (fileBytes : Bytes) (fs : Disk Bytes) :
    putFileOn (disk order) root path fileBytes fs = putFile root fs path fileBytes := by
  unfold putFileOn putFile
  cases absPath root path with
  | error e => rfl
  | ok path =>
    simp only
    cases parent path with
    | none => rfl
    | some dir =>
      simp only
      have htemp := Tx.mapError_apply ofIoError (tempFileOn (disk order) dir) fs
      rw [tempFileOn_disk] at htemp
      cases hmk : fs.createDirs fs.cwd dir with
      | mk r fs₁ =>
        rw [hmk] at htemp
        cases r with
        | error e => exact Tx.bind_of_error htemp
        | ok loc =>
          rw [Tx.bind_of_ok htemp]
          exact Tx.mapError_apply _ _ _

theorem names_cons {e : String × Bool} (h : Plain e.1) (entries : List (String × Bool)) :
    names (e :: entries) = (⟨e.1, h⟩, e.2) :: names entries := by
  unfold names
  rw [List.filterMap_cons_some (dif_pos h)]

/-- A loop over the entries that leaves the tree. -/
theorem foldlM_names {out : List String}
    {step : List String → Name × Bool → Tx (Disk Bytes) StorageError (List String)}
    {pureStep : List String → String × Bool → Except StorageError (List String)}
    (hstep : ∀ e (h : Plain e.1) out, step out (⟨e.1, h⟩, e.2) fs = (pureStep out e, fs))
    {entries : List (String × Bool)} (hplain : ∀ e ∈ entries, Plain e.1) :
    (names entries).foldlM step out fs = (entries.foldlM pureStep out, fs) := by
  induction entries generalizing out with
  | nil => rfl
  | cons e entries ih =>
    have he := hplain e List.mem_cons_self
    rw [names_cons he, List.foldlM_cons, List.foldlM_cons]
    cases hr : pureStep out e with
    | error err => exact Tx.bind_of_error ((hstep e he out).trans (by rw [hr]))
    | ok out' =>
      rw [Tx.bind_of_ok ((hstep e he out).trans (by rw [hr]))]
      exact ih fun e' he' => hplain e' (List.mem_cons_of_mem _ he')

theorem appendDirOn_disk (hplain : ∀ path entries, fs.readDir order path = .ok entries →
      ∀ e ∈ entries, Plain e.1) (fuel : ℕ) (path : String) (out : List String) :
    appendDirOn (disk order) fuel path out fs = (appendDir order fs fuel path out, fs) := by
  induction fuel generalizing path out with
  | zero => rfl
  | succ fuel ih =>
    have hread : ((disk order).readDir path).mapError ofIoError fs =
        (((fs.readDir order path).map names).mapError ofIoError, fs) := Tx.mapError_apply _ _ _
    unfold appendDirOn appendDir
    cases hr : fs.readDir order path with
    | error e =>
      rw [hr] at hread
      exact Tx.bind_of_error hread
    | ok entries =>
      rw [hr] at hread
      rw [Tx.bind_of_ok hread]
      refine foldlM_names (fun e he out => ?_) (hplain path entries hr)
      by_cases hdir : e.2 = true
      · simp only [hdir, if_true]
        cases ha : appendDir order fs fuel (join path e.1) out with
        | error err => exact Tx.bind_of_error ((ih _ out).trans (by rw [ha]))
        | ok out' =>
          rw [Tx.bind_of_ok ((ih _ out).trans (by rw [ha]))]
          rfl
      · simp only [hdir, Bool.false_eq_true, if_false]
        rfl

theorem listPrefixOn_disk (hplain : ∀ path entries, fs.readDir order path = .ok entries →
      ∀ e ∈ entries, Plain e.1) (root path : String) :
    listPrefixOn (disk order) (fs.depth + 1) root path fs =
      (listPrefix order root fs path, fs) := by
  unfold listPrefixOn listPrefix
  cases absPath root path with
  | error e => rfl
  | ok start => exact appendDirOn_disk hplain _ _ _

end Disk

/-! ## Where the root stands -/

/-- What is relied on where the root is a directory, in the states `I`: what is on the way to it is
there, and a directory can only be missing for a `mkdir` where its own is. -/
structure Stands (S : System σ) (root : String) (I : σ → Prop) : Prop where
  onTheWay : ∀ path s, I s → path ≠ [] → OnTheWay (components root) path →
    S.pathExists path s = true
  missing : ∀ path c s, I s → (S.mkdir (path ++ [c]) s).1 = .error .notFound →
    S.pathExists path s = false
  mkdir : ∀ path s, I s → I (S.mkdir path s).2

theorem stat_of_mkdir_missing {order : Disk.Order} {path : List Component} {c : Component}
    {fs : Disk Bytes} (h : ((disk order).mkdir (path ++ [c]) fs).1 = .error .notFound) :
    (disk order).pathExists path fs = false := by
  have hmk : (fs.mkdir (path ++ [c])).1 = .error .notFound := h
  have hstat : fs.stat path = none := by
    cases hw : fs.walk fs.cwd path with
    | error e => simp only [Disk.stat, hw]
    | ok l =>
      have hend := fs.walk_concat fs.cwd path c
      rw [hw] at hend
      by_cases hl : fs.IsDir l
      · rcases Disk.mkdir_concat (c := c) hw hl with ⟨-, he, -⟩ | ⟨-, d', he, -⟩ | ⟨-, he, -⟩ <;>
          · rw [he] at hmk
            cases hmk
      · have herror : fs.walk fs.cwd (path ++ [c]) = .error (fs.notDir l) :=
          hend.trans (if_neg hl)
        rw [Disk.mkdir_of_walk_error herror, Disk.notDir] at hmk
        split_ifs at hmk with hmem
        · cases hmk
        · rw [stat_of_walk hw]
          exact AList.lookup_eq_none.mpr hmem
  simp only [disk, hstat, Option.isSome_none, Bool.and_false]

/-- **A tree where the root leads to a directory.** -/
theorem stands_disk (order : Disk.Order) (root : String) :
    Stands (disk order) root fun fs => ∃ base, Rooted root fs base where
  onTheWay path fs h hne hpath := by
    obtain ⟨base, hroot⟩ := h
    obtain ⟨l, hl, hdir⟩ := Disk.exists_walk_of_onTheWay hroot.walk hroot.dir hpath
    simp only [disk, stat_of_walk hl, ne_eq, hne, not_false_eq_true, decide_true, Bool.true_and]
    exact AList.lookup_isSome.mpr hdir.mem
  missing path c fs h hmk := stat_of_mkdir_missing hmk
  mkdir path fs h := by
    obtain ⟨base, hroot⟩ := h
    exact ⟨base, hroot.keeps (fs.keeps_mkdir path)⟩

end FsStorage

end Freighter
