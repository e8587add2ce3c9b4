import Freighter.Lib.FileTree
import Freighter.Types.Index

/-!
# The filesystem store

`FsStorageProvider` keeps every file below its root, at the path of its key.

* `absPath`, `pullFile`, `putFile`, `deleteFile`, `listPrefix` with the recursion `appendDir`.
* `Key`, `Prefix`: relative keys of plain names, and prefixes that name a directory.
* **`putFile_key`**, `deleteFile_key`, `pullFile_key`: what the operations do at a key;
  **`listPrefix_eq`**: what a listing returns.
-/

namespace Freighter

namespace FsStorage

open FileTree UnixPath

/-! ## The provider -/

/-- `From<io::Error>`. -/
def ofIoError : IoError → StorageError
  | .notFound => .notFound
  | .other => .serviceError

/-- `FsStorageProvider::new`. -/
def new (root : String) (fs : Disk Bytes) : Except StorageError Unit × Disk Bytes :=
  match fs.createDirs fs.cwd (components root) with
  | (.error e, fs) => (.error (ofIoError e), fs)
  | (.ok _, fs) => (.ok (), fs)

def absPath (root path : String) : Except StorageError String :=
  let path := join root path
  if startsWith path root then .ok path else .error .serviceError

def pullFile (root : String) (fs : Disk Bytes) (path : String) : Except StorageError Bytes :=
  (fs.read (join root path)).mapError ofIoError

/-- The file is written under another name in the same directory and renamed. -/
def putFile (root : String) (fs : Disk Bytes) (path : String) (fileBytes : Bytes) :
    Except StorageError Unit × Disk Bytes :=
  match absPath root path with
  | .error e => (.error e, fs)
  | .ok path =>
    match parent path with
    -- the `unwrap` panics; nothing has been written
    | none => (.error .serviceError, fs)
    | some parent =>
      match fs.createDirs fs.cwd parent with
      | (.error e, fs) => (.error (ofIoError e), fs)
      | (.ok _, fs) => (fs.write path fileBytes).map (·.mapError fun _ => .serviceError) id

def deleteFile (root : String) (fs : Disk Bytes) (path : String) :
    Except StorageError Unit × Disk Bytes :=
  match absPath root path with
  | .error e => (.error e, fs)
  | .ok path => (fs.remove path).map (·.mapError ofIoError) id

section Listing

variable (order : Disk.Order)

/-- `append_dir`; `fuel` bounds the depth of the tree. -/
def appendDir (fs : Disk Bytes) : ℕ → String → List String → Except StorageError (List String)
  | 0, _, _ => .error .serviceError
  | fuel + 1, path, out =>
    match fs.readDir order path with
    | .error e => .error (ofIoError e)
    | .ok entries =>
      entries.foldlM (fun out e => do
        let out ← if e.2 then appendDir fs fuel (join path e.1) out else pure out
        pure (out ++ [join path e.1])) out

def listPrefix (root : String) (fs : Disk Bytes) (path : String) :
    Except StorageError (List String) :=
  match absPath root path with
  | .error e => .error e
  | .ok start => appendDir order fs (fs.depth + 1) start []

end Listing

/-! ## Keys -/

/-- A relative key: plain names separated by slashes. -/
@[ext]
structure Key where
  names : List String
  nonempty : names ≠ []
  plain : ∀ n ∈ names, Plain n

instance : DecidableEq Key := fun k k' => decidable_of_iff (k.names = k'.names) Key.ext_iff.symm

def Key.text (k : Key) : String := relative k.names

/-- A prefix that names a directory, with a slash at its end or without. -/
structure Prefix where
  names : List String
  plain : ∀ n ∈ names, Plain n
  slash : Bool

def Prefix.text (p : Prefix) : String :=
  if p.slash = true ∧ p.names ≠ [] then relative p.names ++ "/" else relative p.names

/-- The key lies in the directory, at any depth. -/
def Prefix.Under (p : Prefix) (k : Key) : Prop := ∃ rest, rest ≠ [] ∧ k.names = p.names ++ rest

theorem Key.text_injective : Function.Injective Key.text := by
  intro k k' h
  have hcomponents : ∀ k : Key, components k.text = k.names.map .normal := by
    intro k
    rw [Key.text, relative_eq_joins k.plain, components_joins k.plain]
    rfl
  have hnames := congrArg components h
  rw [hcomponents, hcomponents] at hnames
  exact Key.ext (List.map_injective_iff.mpr (fun _ _ e => Component.normal.inj e) hnames)

theorem isAbsolute_text (k : Key) : isAbsolute k.text = false := isAbsolute_relative k.plain

theorem join_text (root : String) (k : Key) : join root k.text = k.names.foldl join root :=
  (joins_relative k.nonempty k.plain root).symm

/-- A relative path is joined below the root. -/
theorem absPath_of_relative {path : String} (h : isAbsolute path = false) (root : String) :
    absPath root path = .ok (join root path) := by
  have hprefix : components root <+: components (join root path) := by
    by_cases hr : root = ""
    · subst hr
      exact List.nil_prefix
    · rw [components_join hr h]
      exact List.prefix_append _ _
  unfold absPath
  exact if_pos (List.isPrefixOf_iff_prefix.mpr hprefix)

/-! ## What the operations do at a key -/

/-- The root leads to the directory `base`. -/
structure Rooted (root : String) (fs : Disk Bytes) (base : Location) : Prop where
  walk : fs.walk fs.cwd (components root) = .ok base
  dir : fs.IsDir base

section Key

variable {root : String} {fs fs' : Disk Bytes} {base : Location}

theorem Rooted.keeps (h : Rooted root fs base) (hk : fs.Keeps fs') : Rooted root fs' base :=
  ⟨hk.cwd ▸ hk.walk h.walk, hk.dirs base h.dir⟩

theorem rooted_new {e : Unit} (h : new root fs = (.ok e, fs')) : ∃ base, Rooted root fs' base := by
  unfold new at h
  split at h
  · cases h
  · next base fs₁ hmk =>
    cases h
    obtain ⟨hk, hdir, hw⟩ := Disk.createDirs_ok fs.working hmk
    exact ⟨base, hk.cwd ▸ hw, hdir⟩

theorem Rooted.locate (h : Rooted root fs base) (k : Key) :
    fs.locate (join root k.text) = fs.walk base (k.names.map .normal) := by
  rw [join_text]
  exact Disk.locate_joins h.walk k.nonempty k.plain

/-- The path of a key leads to its names below the root. -/
theorem Rooted.locate_eq_ok (h : Rooted root fs base) {k : Key}
    (hk : ∀ q, q <+: k.names → q ≠ k.names → fs.IsDir (base ++ q)) :
    fs.locate (join root k.text) = .ok (base ++ k.names) := by
  rw [h.locate k]
  exact Disk.walk_normal hk

theorem pullFile_key (h : Rooted root fs base) {k : Key} {bytes : Bytes}
    (hk : fs.nodes.lookup (base ++ k.names) = some (.file bytes)) :
    pullFile root fs k.text = .ok bytes := by
  have hmem := HashMap.mem_of_lookup hk
  unfold pullFile Disk.read
  rw [h.locate_eq_ok fun _ => Disk.isDir_of_prefix hmem]
  simp only [hk]
  rfl

/-- The proper prefixes of a key are the prefixes of its directory. -/
theorem prefix_dropLast_iff {k : Key} {q : Location} :
    q <+: k.names.dropLast ↔ q <+: k.names ∧ q ≠ k.names := by
  obtain ⟨pre, n, hk⟩ := k.names.eq_nil_or_concat.resolve_left k.nonempty
  rw [hk, List.concat_eq_append, List.dropLast_concat, List.prefix_concat_iff]
  constructor
  · intro h
    refine ⟨Or.inr h, fun e => ?_⟩
    have hlen := (e ▸ h).length_le
    rw [List.length_append, List.length_singleton] at hlen
    omega
  · exact fun h => h.1.resolve_left h.2

/-- What a put makes of the tree: the file, the directories of the key, and nothing else. -/
structure Placed (base : Location) (k : Key) (bytes : Bytes) (fs fs' : Disk Bytes) : Prop where
  keeps : fs.Keeps fs'
  file : fs'.nodes.lookup (base ++ k.names) = some (.file bytes)
  dirs : ∀ q, q <+: k.names → q ≠ k.names → fs'.IsDir (base ++ q)
  other : ∀ l, (∀ q, q <+: k.names → l ≠ base ++ q) → fs'.nodes.lookup l = fs.nodes.lookup l

theorem Placed.below {k : Key} {bytes : Bytes} (h : Placed base k bytes fs fs') {q : Location}
    (hq : ¬ q <+: k.names) : fs'.nodes.lookup (base ++ q) = fs.nodes.lookup (base ++ q) := by
  refine h.other _ fun q' hq' e => hq ?_
  rwa [List.append_cancel_left e]

/-- **Putting a file at a key**, where no directory of the key is a file and the key is no
directory. -/
theorem putFile_key (h : Rooted root fs base) {k : Key}
    (hk : ∀ q, q <+: k.names → q ≠ k.names → base ++ q ∈ fs.nodes → fs.IsDir (base ++ q))
    (hkey : ¬ fs.IsDir (base ++ k.names)) (bytes : Bytes) :
    ∃ fs', putFile root fs k.text bytes = (.ok (), fs') ∧ Placed base k bytes fs fs' := by
  have hne : ∀ q, q <+: k.names.dropLast → base ++ k.names ≠ base ++ q := by
    intro q hq e
    exact (prefix_dropLast_iff.mp hq).2 (List.append_cancel_left e).symm
  obtain ⟨fs₁, hmk, hkeep, hdirs, hother⟩ := Disk.createDirs_normal h.dir fun q hq hmem =>
    hk q (prefix_dropLast_iff.mp hq).1 (prefix_dropLast_iff.mp hq).2 hmem
  have hmk' : fs.createDirs fs.cwd (components root ++ k.names.dropLast.map .normal) =
      (.ok (base ++ k.names.dropLast), fs₁) := by
    rw [Disk.createDirs_append, Disk.createDirs_of_walk h.walk h.dir]
    exact hmk
  have hdirs' : ∀ q, q <+: k.names → q ≠ k.names → fs₁.IsDir (base ++ q) := fun q hq hq' =>
    hdirs q (prefix_dropLast_iff.mpr ⟨hq, hq'⟩)
  have hloc := (h.keeps hkeep).locate_eq_ok hdirs'
  have hparent : fs₁.IsDir (base ++ k.names).dropLast := by
    rw [List.dropLast_append_of_ne_nil k.nonempty]
    exact hdirs _ List.prefix_rfl
  have hkey' : ¬ fs₁.IsDir (base ++ k.names) := fun hd => hkey ((hother _ hne).symm.trans hd)
  refine ⟨fs₁.place _ (.file bytes) hparent hkey', ?_, ?_, ?_, ?_, ?_⟩
  · have hpath := absPath_of_relative (isAbsolute_text k) root
    have hdir : parent (join root k.text) =
        some (components root ++ k.names.dropLast.map .normal) := by
      rw [join_text]
      exact parent_joins k.nonempty k.plain
    simp only [putFile, hpath, hdir, hmk', Disk.write, hloc, dif_pos (And.intro hparent hkey')]
    rfl
  · exact hkeep.trans (Disk.keeps_place hparent hkey')
  · exact AList.lookup_insert _
  · exact fun q hq hq' => (hdirs' q hq hq').insert hkey' _
  · intro l hl
    have hl' : l ≠ base ++ k.names := hl _ List.prefix_rfl
    exact (AList.lookup_insert_ne hl').trans
      (hother l fun q hq => hl q (prefix_dropLast_iff.mp hq).1)

/-- Deleting the file at a key. -/
theorem deleteFile_key (h : Rooted root fs base) {k : Key} {bytes : Bytes}
    (hk : fs.nodes.lookup (base ++ k.names) = some (.file bytes)) :
    ∃ fs', deleteFile root fs k.text = (.ok (), fs') ∧ fs.Keeps fs' ∧
      fs'.nodes.lookup (base ++ k.names) = none ∧
      ∀ l, l ≠ base ++ k.names → fs'.nodes.lookup l = fs.nodes.lookup l := by
  have hmem := HashMap.mem_of_lookup hk
  have hloc := h.locate_eq_ok fun _ => Disk.isDir_of_prefix hmem
  have hdir : ¬ fs.IsDir (base ++ k.names) := fun hd => nomatch hk.symm.trans hd
  refine ⟨fs.erase _ hdir, ?_, Disk.keeps_erase hdir, AList.lookup_erase _ _, fun l hl => ?_⟩
  · have hpath := absPath_of_relative (isAbsolute_text k) root
    simp only [deleteFile, hpath, Disk.remove, hloc, dif_neg hdir, if_pos hmem]
    rfl
  · exact AList.lookup_erase_ne hl

/-- Deleting at a key without a file changes nothing. -/
theorem deleteFile_missing (h : Rooted root fs base) {k : Key}
    (hk : ∀ bytes, fs.nodes.lookup (base ++ k.names) ≠ some (.file bytes)) :
    (deleteFile root fs k.text).2 = fs := by
  have hpath := absPath_of_relative (isAbsolute_text k) root
  simp only [deleteFile, hpath, Disk.remove]
  cases hl : fs.locate (join root k.text) with
  | error e => rfl
  | ok l =>
    rw [h.locate k] at hl
    obtain rfl := Disk.eq_of_walk_normal hl
    by_cases hd : fs.IsDir (base ++ k.names)
    · simp only [dif_pos hd]
      rfl
    · have hmem : base ++ k.names ∉ fs.nodes := by
        intro hmem
        obtain ⟨node, hnode⟩ := Option.isSome_iff_exists.mp (AList.lookup_isSome.mpr hmem)
        cases node with
        | dir => exact hd hnode
        | file bytes => exact hk bytes hnode
      simp only [dif_neg hd, if_neg hmem]
      rfl

end Key

/-! ## Listings -/

section Prefix

variable {root : String} {fs : Disk Bytes} {base : Location} (p : Prefix)

theorem Prefix.text_eq :
    p.text = if p.slash = true then join (relative p.names) "" else relative p.names := by
  unfold Prefix.text
  by_cases hs : p.slash = true
  · by_cases hn : p.names = []
    · rw [if_neg fun h => h.2 hn, if_pos hs, hn]
      exact (join_empty_left "").symm
    · rw [if_pos ⟨hs, hn⟩, if_pos hs, join_of_relative rfl, separator_relative hn p.plain,
        String.append_empty]
  · rw [if_neg fun h => hs h.1, if_neg hs]

theorem Prefix.isAbsolute_text : isAbsolute p.text = false := by
  have hnames := isAbsolute_relative p.plain
  rw [p.text_eq]
  split_ifs
  · exact isAbsolute_join hnames rfl
  · exact hnames

theorem Prefix.join_text {rest : List String} (hne : rest ≠ []) (h : ∀ n ∈ rest, Plain n) :
    join p.text (relative rest) = relative (p.names ++ rest) := by
  have hrest := isAbsolute_relative h
  rw [p.text_eq, ← join_relative hne p.plain h]
  split_ifs
  · rw [join_join rfl hrest, join_empty_left]
  · rfl

theorem Prefix.components_join (root : String) :
    components (join root p.text) = components root ++ p.names.map .normal := by
  have hnames : components (join root (relative p.names)) =
      components root ++ p.names.map .normal := by
    by_cases hn : p.names = []
    · rw [hn]
      exact (components_join_empty root).trans (List.append_nil _).symm
    · rw [← joins_relative hn p.plain, components_joins p.plain]
  rw [p.text_eq]
  split_ifs
  · rw [← join_join (isAbsolute_relative p.plain) rfl, components_join_empty, hnames]
  · exact hnames

/-- The listing starts somewhere unless root and prefix are both empty. -/
theorem Prefix.start_ne_empty :
    join root p.text ≠ "" ↔ root ≠ "" ∨ p.names ≠ [] := by
  constructor
  · intro h
    by_contra hc
    obtain ⟨hr, hn⟩ := not_or.mp hc
    refine h ?_
    rw [not_not.mp hr, join_empty_left, p.text_eq, not_not.mp hn]
    exact ite_self _
  · rintro h e
    have hcomponents := p.components_join root
    rw [join_of_relative p.isAbsolute_text, String.append_eq_empty_iff,
      String.append_eq_empty_iff] at e
    have hr : root = "" := e.1.1
    have hn : p.names = [] := by
      rw [hr, join_empty_left, e.2] at hcomponents
      exact List.map_eq_nil_iff.mp hcomponents.symm
    exact h.elim (· hr) (· hn)

variable {p}

theorem Rooted.walk_start (h : Rooted root fs base) (p : Prefix) :
    fs.walk fs.cwd (components (join root p.text)) = fs.walk base (p.names.map .normal) := by
  rw [p.components_join, Disk.walk_append, h.walk]
  rfl

/-- Where the listing of a directory starts. -/
theorem Rooted.locate_start (h : Rooted root fs base) (hne : root ≠ "" ∨ p.names ≠ [])
    (hd : fs.IsDir (base ++ p.names)) :
    fs.locate (join root p.text) = .ok (base ++ p.names) := by
  refine Disk.locate_eq_ok.mpr ⟨p.start_ne_empty.mpr hne, ?_, fun _ => hd⟩
  rw [h.walk_start p]
  exact Disk.walk_normal fun _ => Disk.isDir_of_prefix hd.mem

end Prefix

section Listing

variable {order : Disk.Order} {root path : String} {fs : Disk Bytes} {base loc : Location}

/-- A loop that only appends. -/
theorem foldlM_append {ε β γ : Type} {step : List β → γ → Except ε (List β)} {g : γ → List β}
    {es : List γ} (h : ∀ e ∈ es, ∀ out, step out e = .ok (out ++ g e)) (out : List β) :
    es.foldlM step out = .ok (out ++ es.flatMap g) := by
  induction es generalizing out with
  | nil => exact congrArg Except.ok (List.append_nil out).symm
  | cons e es ih =>
    rw [List.foldlM_cons, h e List.mem_cons_self, List.flatMap_cons, ← List.append_assoc]
    exact ih (fun e' he' => h e' (List.mem_cons_of_mem _ he')) _

theorem readDir_eq (hl : fs.locate path = .ok loc) (hd : fs.IsDir loc) :
    fs.readDir order path = .ok (order loc (fs.entries loc)) := by
  simp only [Disk.readDir, hl, if_pos hd]

/-- **The recursion returns the path of everything below its start.** -/
theorem appendDir_eq (horder : ∀ loc es, (order loc es).Perm es) {fuel : ℕ}
    (hfuel : fs.depth < fuel + loc.length) (hl : fs.locate path = .ok loc) (hd : fs.IsDir loc)
    (hplain : ∀ rest, loc ++ rest ∈ fs.nodes → ∀ n ∈ rest, Plain n) (out : List String) :
    appendDir order fs fuel path out =
      .ok (out ++ (fs.below order fuel loc).map fun rest => rest.foldl join path) := by
  induction fuel generalizing path loc out with
  | zero =>
    have hlen := Disk.length_le_depth hd.mem
    omega
  | succ fuel ih =>
    have hstep : ∀ e ∈ order loc (fs.entries loc), ∀ out : List String, (do
        let out ← if e.2 then appendDir order fs fuel (join path e.1) out else pure out
        pure (out ++ [join path e.1]) : Except StorageError (List String)) =
        .ok (out ++ ((if e.2 then (fs.below order fuel (loc ++ [e.1])).map (e.1 :: ·) else []) ++
          [[e.1]]).map fun rest => rest.foldl join path) := by
      intro e he out
      rw [(horder loc _).mem_iff] at he
      obtain ⟨node, hnode, hkind⟩ := Disk.mem_entries.mp he
      have hname : Plain e.1 :=
        hplain [e.1] (HashMap.mem_of_lookup hnode) e.1 List.mem_cons_self
      by_cases hb : e.2 = true
      · have hdir : fs.IsDir (loc ++ [e.1]) := by
          cases node with
          | dir => exact hnode
          | file bytes => exact absurd (hkind.trans hb) Bool.false_ne_true
        have hfuel' : fs.depth < fuel + (loc ++ [e.1]).length := by
          rw [List.length_append, List.length_singleton]
          omega
        have hplain' : ∀ rest, loc ++ [e.1] ++ rest ∈ fs.nodes → ∀ n ∈ rest, Plain n := by
          intro rest hmem n hn
          rw [List.append_assoc] at hmem
          exact hplain _ hmem n (List.mem_append_right _ hn)
        rw [if_pos hb, if_pos hb, ih hfuel' (Disk.locate_join hl hd hname) hdir hplain' out,
          List.map_append, List.map_map, ← List.append_assoc]
        rfl
      · rw [if_neg hb, if_neg hb]
        rfl
    rw [appendDir, readDir_eq hl hd]
    simp only
    rw [foldlM_append hstep out, Disk.below, List.map_flatMap]

/-- **What a listing returns**: everything below the directory, directories too, under the path
joined to the root. -/
theorem listPrefix_eq (horder : ∀ loc es, (order loc es).Perm es) (h : Rooted root fs base)
    {p : Prefix} (hne : root ≠ "" ∨ p.names ≠ []) (hd : fs.IsDir (base ++ p.names))
    (hplain : ∀ rest, base ++ p.names ++ rest ∈ fs.nodes → ∀ n ∈ rest, Plain n) :
    listPrefix order root fs p.text =
      .ok ((fs.below order (fs.depth + 1) (base ++ p.names)).map fun rest =>
        join root (relative (p.names ++ rest))) := by
  have hfuel : fs.depth < fs.depth + 1 + (base ++ p.names).length := by omega
  unfold listPrefix
  rw [absPath_of_relative p.isAbsolute_text]
  change appendDir order fs (fs.depth + 1) (join root p.text) [] = _
  rw [appendDir_eq horder hfuel (h.locate_start hne hd) hd hplain, List.nil_append]
  refine congrArg Except.ok (List.map_congr_left fun rest hrest => ?_)
  obtain ⟨hrest', hmem⟩ := (Disk.mem_below horder hfuel).mp hrest
  have hnames := hplain rest hmem
  rw [joins_relative hrest' hnames, join_join p.isAbsolute_text (isAbsolute_relative hnames),
    p.join_text hrest' hnames]

/-- A listing of what is no directory fails. -/
theorem listPrefix_error (h : Rooted root fs base) {p : Prefix}
    (hd : ¬ ((root ≠ "" ∨ p.names ≠ []) ∧ fs.IsDir (base ++ p.names))) :
    ∃ e, listPrefix order root fs p.text = .error e := by
  have hread : ∃ e, fs.readDir order (join root p.text) = .error e := by
    unfold Disk.readDir
    cases hl : fs.locate (join root p.text) with
    | error e => exact ⟨e, rfl⟩
    | ok l =>
      obtain ⟨hstart, hw, -⟩ := Disk.locate_eq_ok.mp hl
      rw [h.walk_start p] at hw
      obtain rfl := Disk.eq_of_walk_normal hw
      have hdir : ¬ fs.IsDir (base ++ p.names) :=
        fun hdir => hd ⟨p.start_ne_empty.mp hstart, hdir⟩
      exact ⟨_, if_neg hdir⟩
  obtain ⟨e, he⟩ := hread
  refine ⟨ofIoError e, ?_⟩
  unfold listPrefix
  rw [absPath_of_relative p.isAbsolute_text]
  change appendDir order fs (fs.depth + 1) (join root p.text) [] = _
  rw [appendDir, he]

end Listing

end FsStorage

end Freighter
