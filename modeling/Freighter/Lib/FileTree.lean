import Freighter.Lib.HashMap
import Freighter.Lib.Path
import Mathlib.Data.List.Infix
import Mathlib.Data.List.MinMax
import Mathlib.Data.List.Nodup
import Mathlib.Order.Nat

/-!
# File trees

A file system without symbolic links, as a process with a working directory sees it.

* `Disk`: directories and files by location; every entry is in a directory.
* `Disk.locate`: the location that a path leads to; `read`, `write`, `remove`, `readDir`,
  `createDirs`.
* `Disk.below`: what a recursive walk finds; **`mem_below`**, **`nodup_below`**: everything in the
  directory, once.

The order in which `readDir` returns the entries of a directory is a parameter.
-/

namespace FileTree

open UnixPath

/-- The names on the way from the root directory. -/
abbrev Location : Type := List String

inductive Node (α : Type) where
  | dir
  | file (content : α)

def Node.isDir {α : Type} : Node α → Bool
  | .dir => true
  | .file _ => false

/-- What the system reports. -/
inductive IoError where
  | notFound
  | other
deriving DecidableEq

structure Disk (α : Type) where
  nodes : HashMap Location (Node α)
  cwd : Location
  top : nodes.lookup [] = some .dir
  working : nodes.lookup cwd = some .dir
  closed : ∀ loc ∈ nodes, nodes.lookup loc.dropLast = some .dir

namespace Disk

variable {α : Type}

def IsDir (d : Disk α) (loc : Location) : Prop := d.nodes.lookup loc = some .dir

instance (d : Disk α) (loc : Location) : Decidable (d.IsDir loc) :=
  match h : d.nodes.lookup loc with
  | some .dir => .isTrue h
  | some (.file _) => .isFalse fun e => nomatch h.symm.trans e
  | none => .isFalse fun e => nomatch h.symm.trans e

/-- A tree without entries, its root the working directory. -/
def bare : Disk α where
  nodes := AList.singleton [] .dir
  cwd := []
  top := rfl
  working := rfl
  closed := fun loc h => by
    rw [AList.mem_keys, AList.keys_singleton, List.mem_singleton] at h
    rw [h]
    rfl

/-! ## Changes -/

theorem IsDir.insert {d : Disk α} {l loc : Location} (hl : d.IsDir l) (h : ¬ d.IsDir loc)
    (node : Node α) : (d.nodes.insert loc node).lookup l = some .dir := by
  have hne : l ≠ loc := fun e => h (e ▸ hl)
  rw [AList.lookup_insert_ne hne]
  exact hl

theorem IsDir.erase {d : Disk α} {l loc : Location} (hl : d.IsDir l) (h : ¬ d.IsDir loc) :
    (d.nodes.erase loc).lookup l = some .dir := by
  have hne : l ≠ loc := fun e => h (e ▸ hl)
  rw [AList.lookup_erase_ne hne]
  exact hl

/-- A new entry of a directory. -/
def place (d : Disk α) (loc : Location) (node : Node α) (hp : d.IsDir loc.dropLast)
    (h : ¬ d.IsDir loc) : Disk α where
  nodes := d.nodes.insert loc node
  cwd := d.cwd
  top := IsDir.insert d.top h node
  working := IsDir.insert d.working h node
  closed := fun l hl => by
    rcases (AList.mem_insert _).mp hl with rfl | hl
    · exact hp.insert h node
    · exact IsDir.insert (d.closed l hl) h node

/-- The tree without a file. -/
def erase (d : Disk α) (loc : Location) (h : ¬ d.IsDir loc) : Disk α where
  nodes := d.nodes.erase loc
  cwd := d.cwd
  top := IsDir.erase d.top h
  working := IsDir.erase d.working h
  closed := fun l hl => IsDir.erase (d.closed l (AList.mem_erase.mp hl).2) h

/-! ## Paths -/

/-- One step along a path. -/
def next (loc : Location) : Component → Location
  | .rootDir => []
  | .curDir => loc
  | .parentDir => loc.dropLast
  | .normal name => loc ++ [name]

/-- Why `loc` cannot be used as a directory. -/
def notDir (d : Disk α) (loc : Location) : IoError :=
  if loc ∈ d.nodes then .other else .notFound

/-- Every step of a path is taken from a directory. -/
def walk (d : Disk α) (loc : Location) : List Component → Except IoError Location
  | [] => .ok loc
  | c :: cs => if d.IsDir loc then d.walk (next loc c) cs else .error (d.notDir loc)

/-- Where a path leads; the last name need not exist. -/
def locate (d : Disk α) (path : String) : Except IoError Location :=
  if path = "" then .error .notFound
  else
    match d.walk d.cwd (components path) with
    | .error e => .error e
    | .ok loc =>
      if needsDir path = true ∧ ¬ d.IsDir loc then .error (d.notDir loc) else .ok loc

/-! ## Operations -/

/-- A directory can be opened, but not read. -/
def read (d : Disk α) (path : String) : Except IoError α :=
  match d.locate path with
  | .error e => .error e
  | .ok loc =>
    match d.nodes.lookup loc with
    | some (.file content) => .ok content
    | some .dir => .error .other
    | none => .error .notFound

/-- Give the path a file, in the place of one that is there. -/
def write (d : Disk α) (path : String) (content : α) : Except IoError Unit × Disk α :=
  match d.locate path with
  | .error e => (.error e, d)
  | .ok loc =>
    if h : d.IsDir loc.dropLast ∧ ¬ d.IsDir loc then (.ok (), d.place loc (.file content) h.1 h.2)
    else (.error .other, d)

def remove (d : Disk α) (path : String) : Except IoError Unit × Disk α :=
  match d.locate path with
  | .error e => (.error e, d)
  | .ok loc =>
    if h : d.IsDir loc then (.error .other, d)
    else if loc ∈ d.nodes then (.ok (), d.erase loc h) else (.error .notFound, d)

/-- The names in a directory, and which of them are directories. -/
def entries (d : Disk α) (loc : Location) : List (String × Bool) :=
  d.nodes.iter.filterMap fun e =>
    e.1.getLast?.bind fun name => if e.1.dropLast = loc then some (name, e.2.isDir) else none

/-- An order of the entries of each directory. -/
abbrev Order : Type := Location → List (String × Bool) → List (String × Bool)

def readDir (order : Order) (d : Disk α) (path : String) : Except IoError (List (String × Bool)) :=
  match d.locate path with
  | .error e => .error e
  | .ok loc => if d.IsDir loc then .ok (order loc (d.entries loc)) else .error (d.notDir loc)

/-- What is at the end of a path, if anything. -/
def stat (d : Disk α) (cs : List Component) : Option (Node α) :=
  match d.walk d.cwd cs with
  | .error _ => none
  | .ok loc => d.nodes.lookup loc

/-- `mkdir`, of a path with components: a new directory in one that is there. -/
def mkdir (d : Disk α) (cs : List Component) : Except IoError Unit × Disk α :=
  match d.walk d.cwd cs with
  | .error e => (.error e, d)
  | .ok loc =>
    if h : d.IsDir loc.dropLast ∧ loc ∉ d.nodes then
      (.ok (), d.place loc .dir h.1 fun hd => h.2 (HashMap.mem_of_lookup hd))
    else (.error .other, d)

/-- `create_dir_all` along components: the directories that are missing are made. -/
def createDirs (d : Disk α) (loc : Location) :
    List Component → Except IoError Location × Disk α
  | [] => (.ok loc, d)
  | c :: cs =>
    if h : d.IsDir (next loc c) then d.createDirs (next loc c) cs
    else if hp : d.IsDir (next loc c).dropLast ∧ next loc c ∉ d.nodes then
      (d.place (next loc c) .dir hp.1 h).createDirs (next loc c) cs
    else (.error .other, d)

/-! ## The shape of the tree -/

section Shape

variable {d : Disk α} {loc : Location}

theorem isDir_of_append {rest : Location} (h : loc ++ rest ∈ d.nodes) (hne : rest ≠ []) :
    d.IsDir loc := by
  induction rest using List.reverseRecOn with
  | nil => exact absurd rfl hne
  | append_singleton rest name ih =>
    have hdir := d.closed _ h
    rw [← List.append_assoc, List.dropLast_concat] at hdir
    by_cases hrest : rest = []
    · rw [hrest, List.append_nil] at hdir
      exact hdir
    · exact ih (HashMap.mem_of_lookup hdir) hrest

/-- What lies on the way to an entry is a directory. -/
theorem isDir_of_prefix {names q : Location} (h : loc ++ names ∈ d.nodes) (hq : q <+: names)
    (hne : q ≠ names) : d.IsDir (loc ++ q) := by
  obtain ⟨rest, hrest⟩ := hq
  have hmem : loc ++ q ++ rest ∈ d.nodes := by rwa [List.append_assoc, hrest]
  refine isDir_of_append hmem fun e => hne ?_
  rw [← hrest, e, List.append_nil]

theorem IsDir.mem (h : d.IsDir loc) : loc ∈ d.nodes := HashMap.mem_of_lookup h

theorem mem_entries {name : String} {b : Bool} :
    (name, b) ∈ d.entries loc ↔
      ∃ node, d.nodes.lookup (loc ++ [name]) = some node ∧ node.isDir = b := by
  unfold entries
  rw [List.mem_filterMap]
  constructor
  · rintro ⟨⟨l, node⟩, hl, hb⟩
    obtain ⟨last, hlast, hif⟩ := Option.bind_eq_some_iff.mp hb
    obtain ⟨pre, rfl⟩ := List.getLast?_eq_some_iff.mp hlast
    change (if (pre ++ [last]).dropLast = loc then _ else _) = _ at hif
    split_ifs at hif with hpre
    cases hif
    rw [List.dropLast_concat] at hpre
    exact ⟨node, hpre ▸ HashMap.mem_iter.mp hl, rfl⟩
  · rintro ⟨node, hl, rfl⟩
    refine ⟨(loc ++ [name], node), HashMap.mem_iter.mpr hl, ?_⟩
    simp

/-- A name stands once in a directory. -/
theorem nodup_entries (d : Disk α) (loc : Location) : ((d.entries loc).map Prod.fst).Nodup := by
  have hnames : (d.entries loc).map Prod.fst = (d.nodes.iter.map Prod.fst).filterMap fun l =>
      l.getLast?.bind fun name => if l.dropLast = loc then some name else none := by
    rw [entries, List.map_filterMap, List.filterMap_map]
    refine List.filterMap_congr fun e _ => ?_
    rw [Option.map_bind, Function.comp_apply]
    congr 1
    funext name
    rw [Function.comp_apply]
    split_ifs <;> rfl
  rw [hnames]
  refine List.Nodup.filterMap (fun l l' name hl hl' => ?_) (HashMap.nodup_iter d.nodes)
  have hloc : ∀ l : Location, name ∈ (l.getLast?.bind fun name =>
      if l.dropLast = loc then some name else none) → l = loc ++ [name] := by
    intro l h
    obtain ⟨last, hlast, hif⟩ := Option.bind_eq_some_iff.mp h
    obtain ⟨pre, rfl⟩ := List.getLast?_eq_some_iff.mp hlast
    split_ifs at hif with hpre
    cases hif
    rw [← hpre, List.dropLast_concat]
  rw [hloc l hl, hloc l' hl']

end Shape

/-! ## Walking -/

section Walk

variable {d d' : Disk α} {loc : Location}

theorem walk_append (d : Disk α) (loc : Location) (cs cs' : List Component) :
    d.walk loc (cs ++ cs') = (d.walk loc cs).bind fun l => d.walk l cs' := by
  induction cs generalizing loc with
  | nil => rfl
  | cons c cs ih =>
    rw [List.cons_append, walk, walk]
    split_ifs
    · exact ih _
    · rfl

theorem isDir_of_walk {cs : List Component} {l : Location} (h : d.walk loc cs = .ok l)
    (hl : d.IsDir l) : d.IsDir loc := by
  cases cs with
  | nil => cases h; exact hl
  | cons c cs =>
    rw [walk] at h
    split_ifs at h with hloc
    exact hloc

/-- Walking down plain names. -/
theorem walk_normal {names : List String}
    (h : ∀ q, q <+: names → q ≠ names → d.IsDir (loc ++ q)) :
    d.walk loc (names.map .normal) = .ok (loc ++ names) := by
  induction names generalizing loc with
  | nil => rw [List.append_nil]; rfl
  | cons name names ih =>
    have hloc : d.IsDir loc := by
      have := h [] List.nil_prefix (List.cons_ne_nil _ _).symm
      rwa [List.append_nil] at this
    rw [List.map_cons, walk, if_pos hloc, next, ih fun q hq hne => ?_, List.append_assoc]
    · rfl
    · rw [List.append_assoc, List.singleton_append]
      exact h _ (List.cons_prefix_cons.mpr ⟨rfl, hq⟩) fun e => hne (List.cons_injective e)

/-- Walking down plain names leads nowhere else. -/
theorem eq_of_walk_normal {names : List String} {l : Location}
    (h : d.walk loc (names.map .normal) = .ok l) : l = loc ++ names := by
  induction names generalizing loc with
  | nil => cases h; rw [List.append_nil]
  | cons name names ih =>
    rw [List.map_cons, walk] at h
    split_ifs at h
    rw [ih h, next, List.append_assoc]
    rfl

/-- Directories stay directories. -/
structure Keeps (d d' : Disk α) : Prop where
  cwd : d'.cwd = d.cwd
  dirs : ∀ loc, d.IsDir loc → d'.IsDir loc

theorem Keeps.refl (d : Disk α) : Keeps d d := ⟨rfl, fun _ h => h⟩

theorem Keeps.trans {d₁ d₂ d₃ : Disk α} (h : Keeps d₁ d₂) (h' : Keeps d₂ d₃) : Keeps d₁ d₃ :=
  ⟨h'.cwd.trans h.cwd, fun loc hl => h'.dirs loc (h.dirs loc hl)⟩

theorem isDir_place (hp : d.IsDir loc.dropLast) (h : ¬ d.IsDir loc) :
    (d.place loc .dir hp h).IsDir loc :=
  AList.lookup_insert _

theorem keeps_place {node : Node α} (hp : d.IsDir loc.dropLast) (h : ¬ d.IsDir loc) :
    Keeps d (d.place loc node hp h) :=
  ⟨rfl, fun _ hl => hl.insert h node⟩

theorem keeps_erase (h : ¬ d.IsDir loc) : Keeps d (d.erase loc h) :=
  ⟨rfl, fun _ hl => hl.erase h⟩

theorem Keeps.walk (h : Keeps d d') {cs : List Component} {l : Location}
    (hw : d.walk loc cs = .ok l) : d'.walk loc cs = .ok l := by
  induction cs generalizing loc with
  | nil => exact hw
  | cons c cs ih =>
    rw [Disk.walk] at hw ⊢
    split_ifs at hw with hloc
    rw [if_pos (h.dirs loc hloc)]
    exact ih hw

theorem locate_eq_ok {path : String} :
    d.locate path = .ok loc ↔ path ≠ "" ∧ d.walk d.cwd (components path) = .ok loc ∧
      (needsDir path = true → d.IsDir loc) := by
  unfold locate
  by_cases hp : path = ""
  · simp [hp]
  · rw [if_neg hp]
    cases hw : d.walk d.cwd (components path) with
    | error e => simp
    | ok l =>
      by_cases hn : needsDir path = true ∧ ¬ d.IsDir l
      · simp only [if_pos hn, reduceCtorEq, false_iff, not_and, Except.ok.injEq]
        rintro - rfl hdir
        exact hn.2 (hdir hn.1)
      · simp only [if_neg hn, Except.ok.injEq]
        refine ⟨?_, fun h => h.2.1⟩
        rintro rfl
        exact ⟨hp, rfl, fun h => not_not.mp fun hd => hn ⟨h, hd⟩⟩

/-- The path of an entry leads to it. -/
theorem locate_join {path name : String} (h : d.locate path = .ok loc) (hloc : d.IsDir loc)
    (hname : Plain name) : d.locate (join path name) = .ok (loc ++ [name]) := by
  obtain ⟨hp, hw, -⟩ := locate_eq_ok.mp h
  refine locate_eq_ok.mpr ⟨join_ne_empty hname.1 path, ?_, fun hn => ?_⟩
  · rw [components_join_plain hp hname, walk_append, hw]
    exact if_pos hloc
  · rw [needsDir_join_plain hname] at hn
    cases hn

/-- A path of plain names below a path that leads to `loc`. -/
theorem locate_joins {path : String} {names : List String}
    (hw : d.walk d.cwd (components path) = .ok loc) (hne : names ≠ [])
    (hplain : ∀ n ∈ names, Plain n) :
    d.locate (names.foldl join path) = d.walk loc (names.map .normal) := by
  unfold locate
  rw [if_neg (joins_ne_empty hne hplain), components_joins hplain, walk_append, hw]
  cases h : d.walk loc (names.map .normal) with
  | error e => simp [Except.bind, h]
  | ok l => simp [Except.bind, h, needsDir_joins hne hplain]

/-! ### Where a walk ends -/

theorem walk_concat (d : Disk α) (loc : Location) (cs : List Component) (c : Component) :
    d.walk loc (cs ++ [c]) = (d.walk loc cs).bind fun l =>
      if d.IsDir l then .ok (next l c) else .error (d.notDir l) := walk_append d loc cs [c]

theorem eq_foldl_of_walk {cs : List Component} {l : Location} (h : d.walk loc cs = .ok l) :
    l = cs.foldl next loc := by
  induction cs generalizing loc with
  | nil => cases h; rfl
  | cons c cs ih =>
    rw [walk] at h
    split_ifs at h
    exact ih h

/-- **What the text says of `..` is right**: there are no links. -/
theorem foldl_next_resolve (loc : Location) (cs : List Component) :
    (resolve cs).foldl next loc = cs.foldl next loc := by
  have hstep : ∀ (done : List Component) c,
      (resolveStep done c).foldl next loc = next (done.foldl next loc) c := by
    intro done c
    cases c with
    | rootDir => rfl
    | curDir => rfl
    | normal name => rw [resolveStep, List.foldl_concat]
    | parentDir =>
      rcases done.eq_nil_or_concat with rfl | ⟨before, last, rfl⟩
      · rfl
      · rw [List.concat_eq_append, resolveStep, List.getLast?_concat]
        cases last with
        | rootDir =>
          simp only [List.foldl_concat]
          rfl
        | normal name => simp only [List.dropLast_concat, List.foldl_concat, next]
        | curDir => simp only [List.foldl_concat]
        | parentDir => simp only [List.foldl_concat]
  unfold resolve
  induction cs using List.reverseRecOn with
  | nil => rfl
  | append_singleton cs c ih =>
    rw [List.foldl_concat, List.foldl_concat, hstep, ih]

theorem exists_walk_initial {cs q : List Component} {l : Location} (h : d.walk loc cs = .ok l)
    (hl : d.IsDir l) (hq : q <+: cs) : ∃ l', d.walk loc q = .ok l' ∧ d.IsDir l' := by
  obtain ⟨rest, rfl⟩ := hq
  rw [walk_append] at h
  cases hw : d.walk loc q with
  | error e =>
    rw [hw] at h
    cases h
  | ok l' =>
    rw [hw] at h
    exact ⟨l', rfl, isDir_of_walk h hl⟩

theorem exists_walk_of_concat {cs : List Component} {c : Component} {l : Location}
    (h : d.walk loc (cs ++ [c]) = .ok l) : ∃ l', d.walk loc cs = .ok l' ∧ d.IsDir l' := by
  rw [walk_concat] at h
  cases hw : d.walk loc cs with
  | error e =>
    rw [hw] at h
    cases h
  | ok l' =>
    rw [hw] at h
    by_cases hl' : d.IsDir l'
    · exact ⟨l', rfl, hl'⟩
    · cases (if_neg hl').symm.trans h

/-- **What is on the way to a directory is a directory.** -/
theorem exists_walk_of_onTheWay {base cs : List Component} {l : Location}
    (h : d.walk d.cwd base = .ok l) (hl : d.IsDir l) (hcs : OnTheWay base cs) :
    ∃ l', d.walk d.cwd cs = .ok l' ∧ d.IsDir l' := by
  induction cs using List.reverseRecOn with
  | nil => exact ⟨d.cwd, rfl, d.working⟩
  | append_singleton cs c ih =>
    obtain ⟨m, hm, hdir⟩ := ih (hcs.initial (List.prefix_append _ _))
    obtain ⟨q, hq, hsame⟩ := hcs _ List.prefix_rfl
    obtain ⟨l', hl', hdir'⟩ := exists_walk_initial h hl hq
    have hwalk : d.walk d.cwd (cs ++ [c]) = .ok (next m c) := by
      rw [walk_concat, hm]
      exact if_pos hdir
    refine ⟨_, hwalk, ?_⟩
    have hend : next m c = l' := by
      rw [eq_foldl_of_walk hwalk, eq_foldl_of_walk hl', ← foldl_next_resolve, hsame,
        foldl_next_resolve]
    rwa [hend]

/-! ## Making directories -/

/-- A name that is not there is one in the directory. -/
theorem isDir_dropLast_next {c : Component} (hloc : d.IsDir loc) (h : next loc c ∉ d.nodes) :
    d.IsDir (next loc c).dropLast := by
  cases c with
  | rootDir => exact absurd (HashMap.mem_of_lookup d.top) h
  | curDir => exact absurd hloc.mem h
  | parentDir => exact absurd (IsDir.mem (d := d) (d.closed loc hloc.mem)) h
  | normal name =>
    rw [next, List.dropLast_concat]
    exact hloc

theorem keeps_mkdir (d : Disk α) (cs : List Component) : Keeps d (d.mkdir cs).2 := by
  unfold mkdir
  split
  · exact .refl d
  · split_ifs with h
    · exact keeps_place h.1 fun hd => h.2 hd.mem
    · exact .refl d

theorem mkdir_of_walk_error {cs : List Component} {e : IoError}
    (h : d.walk d.cwd cs = .error e) : d.mkdir cs = (.error e, d) := by
  simp only [mkdir, h]

/-- Where its directory is there, a directory is made as `create_dir_all` makes it. -/
theorem mkdir_concat {cs : List Component} {c : Component} {l : Location}
    (h : d.walk d.cwd cs = .ok l) (hl : d.IsDir l) :
    (d.IsDir (next l c) ∧ d.mkdir (cs ++ [c]) = (.error .other, d) ∧
      d.createDirs l [c] = (.ok (next l c), d)) ∨
    (¬ d.IsDir (next l c) ∧ ∃ d', d.mkdir (cs ++ [c]) = (.ok (), d') ∧
      d.createDirs l [c] = (.ok (next l c), d')) ∨
    (¬ d.IsDir (next l c) ∧ d.mkdir (cs ++ [c]) = (.error .other, d) ∧
      d.createDirs l [c] = (.error .other, d)) := by
  have hwalk : d.walk d.cwd (cs ++ [c]) = .ok (next l c) := by
    rw [walk_concat, h]
    exact if_pos hl
  by_cases hn : d.IsDir (next l c)
  · refine Or.inl ⟨hn, ?_, ?_⟩
    · simp only [mkdir, hwalk, hn.mem, not_true, and_false, dif_neg, not_false_eq_true]
    · rw [createDirs, dif_pos hn, createDirs]
  · by_cases hmem : next l c ∈ d.nodes
    · refine Or.inr (Or.inr ⟨hn, ?_, ?_⟩)
      · simp only [mkdir, hwalk, hmem, not_true, and_false, dif_neg, not_false_eq_true]
      · rw [createDirs, dif_neg hn, dif_neg fun hp => hp.2 hmem]
    · have hp := isDir_dropLast_next hl hmem
      refine Or.inr (Or.inl ⟨hn, d.place _ .dir hp hn, ?_, ?_⟩)
      · simp only [mkdir, hwalk, dif_pos (And.intro hp hmem)]
      · rw [createDirs, dif_neg hn, dif_pos ⟨hp, hmem⟩, createDirs]

theorem createDirs_append (d : Disk α) (loc : Location) (cs cs' : List Component) :
    d.createDirs loc (cs ++ cs') =
      match d.createDirs loc cs with
      | (.ok l, d') => d'.createDirs l cs'
      | (.error e, d') => (.error e, d') := by
  induction cs generalizing d loc with
  | nil => rfl
  | cons c cs ih =>
    rw [List.cons_append, createDirs, createDirs]
    split_ifs
    · exact ih _ _
    · exact ih _ _
    · rfl

/-- Where all directories are there none is made. -/
theorem createDirs_of_walk {cs : List Component} {l : Location} (h : d.walk loc cs = .ok l)
    (hl : d.IsDir l) : d.createDirs loc cs = (.ok l, d) := by
  induction cs generalizing loc with
  | nil => cases h; rfl
  | cons c cs ih =>
    rw [walk] at h
    split_ifs at h
    rw [createDirs, dif_pos (isDir_of_walk h hl)]
    exact ih h

/-- Below a file none is made. -/
theorem createDirs_of_walk_other {cs : List Component} {c : Component} (hloc : d.IsDir loc)
    (h : d.walk loc (cs ++ [c]) = .error .other) : d.createDirs loc cs = (.error .other, d) := by
  induction cs generalizing loc with
  | nil =>
    rw [List.nil_append, walk, if_pos hloc] at h
    cases h
  | cons c' cs ih =>
    rw [List.cons_append, walk, if_pos hloc] at h
    rw [createDirs]
    by_cases hn : d.IsDir (next loc c')
    · rw [dif_pos hn]
      exact ih hn h
    · have hmem : next loc c' ∈ d.nodes := by
        by_contra hmem
        have hmissing : d.walk (next loc c') (cs ++ [c]) = .error .notFound := by
          cases cs <;> simp [walk, hn, notDir, hmem]
        cases h.symm.trans hmissing
      rw [dif_neg hn, dif_neg fun hp => hp.2 hmem]

/-- What was made is there, and leads where it should. -/
theorem createDirs_ok {cs : List Component} {l : Location} (hloc : d.IsDir loc)
    (h : d.createDirs loc cs = (.ok l, d')) : Keeps d d' ∧ d'.IsDir l ∧ d'.walk loc cs = .ok l := by
  induction cs generalizing d loc with
  | nil => cases h; exact ⟨.refl _, hloc, rfl⟩
  | cons c cs ih =>
    rw [createDirs] at h
    split_ifs at h with hn hp
    · obtain ⟨hk, hl, hw⟩ := ih hn h
      exact ⟨hk, hl, by rw [walk, if_pos (hk.dirs loc hloc), hw]⟩
    · have hkeep : Keeps d (d.place _ .dir hp.1 hn) := keeps_place hp.1 hn
      obtain ⟨hk, hl, hw⟩ := ih (isDir_place hp.1 hn) h
      exact ⟨hkeep.trans hk, hl, by rw [walk, if_pos ((hkeep.trans hk).dirs loc hloc), hw]⟩
    · cases h

theorem createDirs_cons_normal {name : String} (hloc : d.IsDir loc)
    (h : loc ++ [name] ∈ d.nodes → d.IsDir (loc ++ [name])) (cs : List Component) :
    ∃ d', d.createDirs loc (.normal name :: cs) = d'.createDirs (loc ++ [name]) cs ∧ Keeps d d' ∧
      d'.IsDir (loc ++ [name]) ∧ ∀ l, l ≠ loc ++ [name] → d'.nodes.lookup l = d.nodes.lookup l := by
  rw [createDirs]
  by_cases hn : d.IsDir (loc ++ [name])
  · exact ⟨d, dif_pos hn, .refl d, hn, fun _ _ => rfl⟩
  · have hp : d.IsDir (loc ++ [name]).dropLast := by rwa [List.dropLast_concat]
    refine ⟨d.place _ .dir hp hn, ?_, keeps_place hp hn, isDir_place hp hn, fun l hl => ?_⟩
    · exact (dif_neg hn).trans (dif_pos ⟨hp, mt h hn⟩)
    · exact AList.lookup_insert_ne hl

/-- Making directories down plain names, none of which is a file. -/
theorem createDirs_normal {names : List String} (hloc : d.IsDir loc)
    (h : ∀ q, q <+: names → loc ++ q ∈ d.nodes → d.IsDir (loc ++ q)) :
    ∃ d', d.createDirs loc (names.map .normal) = (.ok (loc ++ names), d') ∧ Keeps d d' ∧
      (∀ q, q <+: names → d'.IsDir (loc ++ q)) ∧
      ∀ l, (∀ q, q <+: names → l ≠ loc ++ q) → d'.nodes.lookup l = d.nodes.lookup l := by
  induction names generalizing d loc with
  | nil =>
    refine ⟨d, by rw [List.append_nil]; rfl, .refl d, fun q hq => ?_, fun l _ => rfl⟩
    rw [List.prefix_nil.mp hq, List.append_nil]
    exact hloc
  | cons name names ih =>
    have hcons : ∀ q : Location, loc ++ [name] ++ q = loc ++ name :: q := fun q => by
      rw [List.append_assoc, List.singleton_append]
    obtain ⟨d₁, hmk, hkeep, hdir, hother⟩ := createDirs_cons_normal hloc
      (h [name] (List.prefix_append [name] names)) (names.map .normal)
    have hbelow : ∀ q, q <+: names → loc ++ [name] ++ q ∈ d₁.nodes →
        d₁.IsDir (loc ++ [name] ++ q) := by
      intro q hq hmem
      by_cases he : loc ++ [name] ++ q = loc ++ [name]
      · rwa [he]
      · rw [← AList.lookup_isSome, hother _ he, AList.lookup_isSome] at hmem
        rw [hcons] at hmem ⊢
        exact hkeep.dirs _ (h _ (List.cons_prefix_cons.mpr ⟨rfl, hq⟩) hmem)
    obtain ⟨d', hmk', hkeep', hdirs, hothers⟩ := ih hdir hbelow
    refine ⟨d', ?_, hkeep.trans hkeep', fun q hq => ?_, fun l hl => ?_⟩
    · rw [List.map_cons, hmk, hmk', hcons]
    · cases q with
      | nil => rw [List.append_nil]; exact (hkeep.trans hkeep').dirs loc hloc
      | cons n q =>
        obtain ⟨rfl, hq'⟩ := List.cons_prefix_cons.mp hq
        exact hcons q ▸ hdirs q hq'
    · rw [hothers l fun q hq => hcons q ▸ hl _ (List.cons_prefix_cons.mpr ⟨rfl, hq⟩)]
      exact hother l (hl [name] (List.prefix_append [name] names))

end Walk

/-! ## The recursive walk -/

section Below

variable {order : Order} {d : Disk α} {loc : Location}

/-- No location is longer. -/
def depth (d : Disk α) : ℕ := (d.nodes.keys.map List.length).foldr max 0

theorem length_le_depth (h : loc ∈ d.nodes) : loc.length ≤ d.depth := by
  have hmem : loc.length ∈ d.nodes.keys.map List.length :=
    List.mem_map_of_mem (AList.mem_keys.mpr h)
  exact List.le_max_of_le hmem le_rfl

/-- What lies below a directory, as a recursive walk finds it; `fuel` bounds the depth. -/
def below (order : Order) (d : Disk α) : ℕ → Location → List Location
  | 0, _ => []
  | fuel + 1, loc =>
    (order loc (d.entries loc)).flatMap fun e =>
      (if e.2 then (below order d fuel (loc ++ [e.1])).map (e.1 :: ·) else []) ++ [[e.1]]

theorem mem_below_succ {fuel : ℕ} {rest : Location} :
    rest ∈ d.below order (fuel + 1) loc ↔ ∃ e ∈ order loc (d.entries loc),
      (e.2 = true ∧ ∃ r ∈ d.below order fuel (loc ++ [e.1]), rest = e.1 :: r) ∨ rest = [e.1] := by
  rw [below, List.mem_flatMap]
  refine exists_congr fun e => and_congr_right fun _ => ?_
  rw [List.mem_append, List.mem_singleton]
  refine or_congr ?_ Iff.rfl
  split_ifs with he
  · simp only [he, true_and, List.mem_map, eq_comm]
  · simp [he]

theorem ne_nil_of_mem_below {fuel : ℕ} {rest : Location} (h : rest ∈ d.below order fuel loc) :
    rest ≠ [] := by
  cases fuel with
  | zero => cases h
  | succ fuel =>
    obtain ⟨e, -, ⟨-, r, -, rfl⟩ | rfl⟩ := mem_below_succ.mp h
    · exact List.cons_ne_nil _ _
    · exact List.cons_ne_nil _ _

/-- **The walk finds what there is.** -/
theorem mem_below (horder : ∀ loc es, (order loc es).Perm es) {fuel : ℕ}
    (hfuel : d.depth < fuel + loc.length) {rest : Location} :
    rest ∈ d.below order fuel loc ↔ rest ≠ [] ∧ loc ++ rest ∈ d.nodes := by
  induction fuel generalizing loc rest with
  | zero =>
    refine ⟨fun h => (nomatch h), fun h => ?_⟩
    have hlen := length_le_depth h.2
    rw [List.length_append] at hlen
    omega
  | succ fuel ih =>
    have hcons : ∀ name, ∀ q : Location, loc ++ [name] ++ q = loc ++ name :: q := fun name q => by
      rw [List.append_assoc, List.singleton_append]
    have ih' : ∀ name r, r ∈ d.below order fuel (loc ++ [name]) ↔
        r ≠ [] ∧ loc ++ name :: r ∈ d.nodes := fun name r => by
      rw [ih (by rw [List.length_append, List.length_singleton]; omega), hcons]
    have hentry : ∀ e, e ∈ order loc (d.entries loc) ↔
        ∃ node, d.nodes.lookup (loc ++ [e.1]) = some node ∧ node.isDir = e.2 := fun e => by
      rw [(horder loc _).mem_iff, mem_entries]
    rw [mem_below_succ]
    constructor
    · rintro ⟨e, he, ⟨-, r, hr, rfl⟩ | rfl⟩
      · exact ⟨List.cons_ne_nil _ _, ((ih' e.1 r).mp hr).2⟩
      · obtain ⟨node, hnode, -⟩ := (hentry e).mp he
        exact ⟨List.cons_ne_nil _ _, HashMap.mem_of_lookup hnode⟩
    · rintro ⟨hne, hmem⟩
      cases rest with
      | nil => exact absurd rfl hne
      | cons name r =>
        by_cases hr : r = []
        · subst hr
          obtain ⟨node, hnode⟩ := Option.isSome_iff_exists.mp (AList.lookup_isSome.mpr hmem)
          exact ⟨(name, node.isDir), (hentry _).mpr ⟨node, hnode, rfl⟩, Or.inr rfl⟩
        · have hdir : d.IsDir (loc ++ [name]) := isDir_of_append (hcons name r ▸ hmem) hr
          refine ⟨(name, true), (hentry _).mpr ⟨.dir, hdir, rfl⟩, Or.inl ⟨rfl, r, ?_, rfl⟩⟩
          exact (ih' name r).mpr ⟨hr, hmem⟩

/-- **The walk finds everything once.** -/
theorem nodup_below (horder : ∀ loc es, (order loc es).Perm es) (fuel : ℕ) (loc : Location) :
    (d.below order fuel loc).Nodup := by
  induction fuel generalizing loc with
  | zero => exact List.nodup_nil
  | succ fuel ih =>
    have hnames : ((order loc (d.entries loc)).map Prod.fst).Nodup :=
      ((horder loc _).map Prod.fst).nodup_iff.mpr (nodup_entries d loc)
    rw [below, List.nodup_flatMap]
    constructor
    · intro e _
      rw [List.nodup_append]
      refine ⟨?_, List.nodup_singleton _, ?_⟩
      · split_ifs
        · exact (ih _).map (List.cons_injective)
        · exact List.nodup_nil
      · intro x hx y hy hxy
        rw [List.mem_singleton] at hy
        split_ifs at hx
        · obtain ⟨r, hr, rfl⟩ := List.mem_map.mp hx
          exact ne_nil_of_mem_below hr (List.cons_injective (hxy.trans hy))
        · cases hx
    · have hhead : ∀ e : String × Bool, ∀ x ∈ (if e.2 then (d.below order fuel (loc ++ [e.1])).map
          (e.1 :: ·) else []) ++ [[e.1]], x.head? = some e.1 := by
        intro e x hx
        rcases List.mem_append.mp hx with hx | hx
        · split_ifs at hx
          · obtain ⟨r, -, rfl⟩ := List.mem_map.mp hx
            rfl
          · cases hx
        · rw [List.mem_singleton.mp hx]
          rfl
      refine (List.pairwise_map.mp hnames).imp fun {e e'} hne => ?_
      intro x hx hx'
      exact hne (Option.some.inj ((hhead e x hx).symm.trans (hhead e' x hx')))

end Below

end Disk

end FileTree
