import Mathlib.Data.List.Basic
import Mathlib.Data.List.Induction
import Mathlib.Data.List.Infix

/-!
# Unix paths

Paths as texts, read as `std::path` reads them on Unix.

* `components`, `join`, `startsWith`, `parent`.
* `Plain`: what a directory entry may be called; `relative`: plain names separated by slashes.
* **`join_join`**, **`components_join`**: joining is associative and appends components;
  `joins_relative`: descending name by name is joining the whole relative path.
* `resolve`: a path without `.` and `..`; `Beneath`: one path under another;
  **`Beneath.append_names`**: descending by names stays there; `OnTheWay`: what is there whenever
  another path is.
-/

namespace UnixPath

inductive Component where
  | rootDir
  | curDir
  | parentDir
  | normal (name : String)
deriving DecidableEq

def isAbsolute (path : String) : Bool := path.toList.head? == some '/'

/-- The pieces between the slashes. -/
def pieces (path : String) : List (List Char) := path.toList.splitOn '/'

/-- The component of a piece; empty pieces and `.` have none. -/
def Component.ofPiece : List Char → Option Component
  | [] => none
  | ['.'] => none
  | ['.', '.'] => some .parentDir
  | name => some (.normal (String.ofList name))

/-- `Path::components`: `.` counts at the start of a relative path only. -/
def components (path : String) : List Component :=
  (if isAbsolute path then [.rootDir]
    else if (pieces path).head? = some ['.'] then [.curDir] else []) ++
      (pieces path).filterMap Component.ofPiece

/-- The slash that `Path::join` puts in. -/
def separator (path : String) : String :=
  if path = "" ∨ path.toList.getLast? = some '/' then "" else "/"

/-- `Path::join`. -/
def join (path other : String) : String :=
  if isAbsolute other then other else path ++ separator path ++ other

/-- `Path::starts_with`, by components. -/
def startsWith (path base : String) : Bool := (components base).isPrefixOf (components path)

/-- The components of `Path::parent`. -/
def parent (path : String) : Option (List Component) :=
  match (components path).getLast? with
  | none => none
  | some .rootDir => none
  | some _ => some (components path).dropLast

/-- The path ends in a slash or in `.`, so that what it leads to has to be a directory. -/
def needsDir (path : String) : Bool :=
  (pieces path).getLast? == some [] || (pieces path).getLast? == some ['.']

example : components "./a//b/../c/." =
    [.curDir, .normal "a", .normal "b", .parentDir, .normal "c"] := by decide

/-! ## Joining -/

section Join

variable {a b c : String}

theorem separator_append (h : b ≠ "") (a : String) : separator (a ++ b) = separator b := by
  have hb : b.toList ≠ [] := fun e => h (String.toList_inj.mp e)
  have hne : ¬ a ++ b = "" := fun e => h (String.append_eq_empty_iff.mp e).2
  unfold separator
  rw [String.toList_append, List.getLast?_append_of_ne_nil _ hb]
  simp only [h, hne, false_or]

@[simp] theorem separator_join_empty (a : String) : separator (a ++ separator a) = "" := by
  by_cases h : a = "" ∨ a.toList.getLast? = some '/'
  · have hs : separator a = "" := if_pos h
    rw [hs, String.append_empty, hs]
  · have hs : separator a = "/" := if_neg h
    rw [hs, separator_append (by decide)]
    decide

theorem join_of_relative (h : isAbsolute b = false) (a : String) :
    join a b = a ++ separator a ++ b := by
  simp only [join, h, Bool.false_eq_true, if_false]

@[simp] theorem join_empty_left (b : String) : join "" b = b := by
  unfold join
  split_ifs
  · rfl
  · rw [String.empty_append]
    exact String.empty_append

theorem isAbsolute_append (h : b ≠ "") (c : String) : isAbsolute (b ++ c) = isAbsolute b := by
  have hb : b.toList ≠ [] := fun e => h (String.toList_inj.mp e)
  simp only [isAbsolute, String.toList_append, List.head?_append_of_ne_nil _ hb]

theorem isAbsolute_join (hb : isAbsolute b = false) (hc : isAbsolute c = false) :
    isAbsolute (join b c) = false := by
  by_cases h : b = ""
  · rwa [h, join_empty_left]
  · rwa [join_of_relative hc, String.append_assoc, isAbsolute_append h]

/-- **Joining is associative.** -/
theorem join_join (hb : isAbsolute b = false) (hc : isAbsolute c = false) (a : String) :
    join (join a b) c = join a (join b c) := by
  rw [join_of_relative (isAbsolute_join hb hc), join_of_relative hc, join_of_relative hb]
  by_cases h : b = ""
  · rw [h, String.append_empty, separator_join_empty, join_empty_left, String.append_empty]
  · rw [separator_append h, join_of_relative hc]
    simp only [String.append_assoc]

/-- The pieces of what was joined stay apart. -/
theorem pieces_join (ha : a ≠ "") (hb : isAbsolute b = false) :
    ∃ ps, ps ≠ [] ∧ pieces (join a b) = ps ++ pieces b ∧
      (pieces a = ps ∨ pieces a = ps ++ [[]]) := by
  unfold pieces
  rw [join_of_relative hb]
  by_cases h : a.toList.getLast? = some '/'
  · obtain ⟨cs, hcs⟩ := List.getLast?_eq_some_iff.mp h
    refine ⟨cs.splitOn '/', List.splitOn_ne_nil _ _, ?_, Or.inr ?_⟩
    · rw [separator, if_pos (Or.inr h), String.append_empty, String.toList_append, hcs,
        List.append_assoc, List.singleton_append, List.splitOn_append_cons_self]
    · rw [hcs, List.splitOn_append_cons_self, List.splitOn_nil]
  · refine ⟨a.toList.splitOn '/', List.splitOn_ne_nil _ _, ?_, Or.inl rfl⟩
    have hs : ¬ (a = "" ∨ a.toList.getLast? = some '/') := not_or.mpr ⟨ha, h⟩
    have hslash : "/".toList = ['/'] := rfl
    rw [separator, if_neg hs, String.toList_append, String.toList_append, hslash, List.append_assoc,
      List.singleton_append, List.splitOn_append_cons_self]

/-- **Joining appends the components.** -/
theorem components_join (ha : a ≠ "") (hb : isAbsolute b = false) :
    components (join a b) = components a ++ (pieces b).filterMap Component.ofPiece := by
  obtain ⟨ps, hne, hjoin, hpieces⟩ := pieces_join ha hb
  have habs : isAbsolute (join a b) = isAbsolute a := by
    rw [join_of_relative hb, String.append_assoc, isAbsolute_append ha]
  have hhead : (pieces (join a b)).head? = (pieces a).head? := by
    rw [hjoin, List.head?_append_of_ne_nil _ hne]
    rcases hpieces with h | h
    · rw [h]
    · rw [h, List.head?_append_of_ne_nil _ hne]
  have hbody : ps.filterMap Component.ofPiece = (pieces a).filterMap Component.ofPiece := by
    rcases hpieces with h | h
    · rw [h]
    · rw [h, List.filterMap_append]
      exact (List.append_nil _).symm
  unfold components
  rw [habs, hhead, hjoin, List.filterMap_append, hbody, List.append_assoc]

end Join

/-! ## Plain names -/

/-- What an entry of a directory may be called. That a system also refuses a NUL, and a name that is
too long for it, is left out. -/
def Plain (name : String) : Prop :=
  name ≠ "" ∧ '/' ∉ name.toList ∧ name ≠ "." ∧ name ≠ ".."

instance (name : String) : Decidable (Plain name) := by unfold Plain; infer_instance

/-- The relative path of names. -/
def relative (names : List String) : String := "/".intercalate names

section Plain

variable {name : String} {names : List String}

theorem pieces_of_plain (h : Plain name) : pieces name = [name.toList] :=
  List.splitOn_eq_singleton h.2.1

theorem isAbsolute_of_plain (h : Plain name) : isAbsolute name = false := by
  unfold isAbsolute
  rw [beq_eq_false_iff_ne]
  exact fun e => h.2.1 (List.mem_of_mem_head? e)

theorem ofPiece_of_plain (h : Plain name) :
    Component.ofPiece name.toList = some (.normal name) := by
  have h1 : name.toList ≠ [] := fun e => h.1 (String.toList_inj.mp e)
  have h2 : name.toList ≠ ['.'] := fun e => h.2.2.1 (String.toList_inj.mp e)
  have h3 : name.toList ≠ ['.', '.'] := fun e => h.2.2.2 (String.toList_inj.mp e)
  unfold Component.ofPiece
  split
  · exact absurd ‹_› h1
  · exact absurd ‹_› h2
  · exact absurd ‹_› h3
  · rw [String.ofList_toList]

theorem components_join_plain {path : String} (hp : path ≠ "") (h : Plain name) :
    components (join path name) = components path ++ [.normal name] := by
  rw [components_join hp (isAbsolute_of_plain h), pieces_of_plain h, List.filterMap_cons_some
    (ofPiece_of_plain h), List.filterMap_nil]

theorem components_of_plain (h : Plain name) : components name = [.normal name] := by
  have h2 : name.toList ≠ ['.'] := fun e => h.2.2.1 (String.toList_inj.mp e)
  unfold components
  rw [isAbsolute_of_plain h, pieces_of_plain h, List.filterMap_cons_some (ofPiece_of_plain h)]
  simp [h2]

theorem join_ne_empty (h : name ≠ "") (path : String) : join path name ≠ "" := by
  unfold join
  split_ifs
  · exact h
  · exact fun e => h (String.append_eq_empty_iff.mp e).2

theorem separator_of_plain (h : Plain name) : separator name = "/" := by
  refine if_neg ?_
  rintro (e | e)
  · exact h.1 e
  · exact h.2.1 (List.mem_of_getLast? e)

theorem separator_join_plain (h : Plain name) (path : String) :
    separator (join path name) = "/" := by
  rw [join_of_relative (isAbsolute_of_plain h), separator_append h.1, separator_of_plain h]

/-- A path that ends in a plain name may lead to a file. -/
theorem needsDir_join_plain (h : Plain name) (path : String) :
    needsDir (join path name) = false := by
  have h1 : name.toList ≠ [] := fun e => h.1 (String.toList_inj.mp e)
  have h2 : name.toList ≠ ['.'] := fun e => h.2.2.1 (String.toList_inj.mp e)
  have hlast : (pieces (join path name)).getLast? = some name.toList := by
    by_cases hp : path = ""
    · rw [hp, join_empty_left, pieces_of_plain h]
      rfl
    · obtain ⟨ps, -, hjoin, -⟩ := pieces_join hp (isAbsolute_of_plain h)
      rw [hjoin, pieces_of_plain h, List.getLast?_concat]
  unfold needsDir
  rw [hlast]
  simp [h1, h2]

theorem isAbsolute_relative (h : ∀ n ∈ names, Plain n) : isAbsolute (relative names) = false := by
  unfold relative
  cases names with
  | nil => rw [String.intercalate_nil]; rfl
  | cons n names =>
    have hn := h n List.mem_cons_self
    cases names with
    | nil => rw [String.intercalate_singleton]; exact isAbsolute_of_plain hn
    | cons m names =>
      rw [String.intercalate_cons_cons, String.append_assoc, isAbsolute_append hn.1]
      exact isAbsolute_of_plain hn

/-- **Descending name by name is joining the relative path.** -/
theorem joins_relative (hne : names ≠ []) (h : ∀ n ∈ names, Plain n) (path : String) :
    names.foldl join path = join path (relative names) := by
  induction names generalizing path with
  | nil => exact absurd rfl hne
  | cons n names ih =>
    have hn := h n List.mem_cons_self
    cases names with
    | nil => exact congrArg (join path) String.intercalate_singleton.symm
    | cons m names =>
      have hrest : ∀ k ∈ m :: names, Plain k := fun k hk => h k (List.mem_cons_of_mem _ hk)
      have hsplit : join n (relative (m :: names)) = relative (n :: m :: names) := by
        rw [join_of_relative (isAbsolute_relative hrest), separator_of_plain hn]
        exact String.intercalate_cons_cons.symm
      rw [List.foldl_cons, ih (List.cons_ne_nil _ _) hrest,
        join_join (isAbsolute_of_plain hn) (isAbsolute_relative hrest), hsplit]

/-- A relative path of plain names is what descending from the empty path gives. -/
theorem relative_eq_joins (h : ∀ n ∈ names, Plain n) : relative names = names.foldl join "" := by
  by_cases hne : names = []
  · rw [hne]
    exact String.intercalate_nil
  · rw [joins_relative hne h, join_empty_left]

/-- Relative paths are joined by joining their names. -/
theorem join_relative {rest : List String} (hne : rest ≠ []) (h : ∀ n ∈ names, Plain n)
    (hrest : ∀ n ∈ rest, Plain n) :
    join (relative names) (relative rest) = relative (names ++ rest) := by
  have happ : ∀ n ∈ names ++ rest, Plain n := fun n hn =>
    (List.mem_append.mp hn).elim (h n) (hrest n)
  rw [← joins_relative hne hrest, relative_eq_joins h, relative_eq_joins happ, List.foldl_append]

theorem separator_relative (hne : names ≠ []) (h : ∀ n ∈ names, Plain n) :
    separator (relative names) = "/" := by
  obtain ⟨pre, n, rfl⟩ := names.eq_nil_or_concat.resolve_left hne
  rw [List.concat_eq_append] at h ⊢
  rw [relative_eq_joins h, List.foldl_append]
  exact separator_join_plain (h n (List.mem_append_right _ List.mem_cons_self)) _

theorem joins_ne_empty {path : String} (hne : names ≠ []) (h : ∀ n ∈ names, Plain n) :
    names.foldl join path ≠ "" := by
  induction names using List.reverseRecOn with
  | nil => exact absurd rfl hne
  | append_singleton names n _ =>
    rw [List.foldl_append]
    exact join_ne_empty (h n (List.mem_append_right _ List.mem_cons_self)).1 _

/-- A slash at the end adds no component. -/
theorem components_join_empty (path : String) : components (join path "") = components path := by
  by_cases hp : path = ""
  · rw [hp, join_empty_left]
  · rw [components_join hp rfl]
    exact List.append_nil _

/-- The components of a descent. -/
theorem components_joins (h : ∀ n ∈ names, Plain n) {path : String} :
    components (names.foldl join path) = components path ++ names.map .normal := by
  induction names using List.reverseRecOn with
  | nil => exact (List.append_nil _).symm
  | append_singleton names n ih =>
    have hn := h n (List.mem_append_right _ List.mem_cons_self)
    have hnames : ∀ m ∈ names, Plain m := fun m hm => h m (List.mem_append_left _ hm)
    rw [List.foldl_append, List.foldl_cons, List.foldl_nil]
    by_cases he : names.foldl join path = ""
    · have hnil : names = [] := by
        by_contra hc
        exact joins_ne_empty hc hnames he
      subst hnil
      change path = "" at he
      rw [List.foldl_nil, he, join_empty_left, components_of_plain hn]
      rfl
    · rw [components_join_plain he hn, ih hnames, List.map_append, List.append_assoc]
      rfl

/-- The parent of a descent stops one name earlier. -/
theorem parent_joins {path : String} (hne : names ≠ []) (h : ∀ n ∈ names, Plain n) :
    parent (names.foldl join path) = some (components path ++ names.dropLast.map .normal) := by
  obtain ⟨pre, n, rfl⟩ := names.eq_nil_or_concat.resolve_left hne
  rw [List.concat_eq_append] at h ⊢
  unfold parent
  rw [components_joins h, List.dropLast_concat, List.map_append, ← List.append_assoc]
  simp only [List.map_cons, List.map_nil, List.getLast?_concat, List.dropLast_concat]

theorem needsDir_joins {path : String} (hne : names ≠ []) (h : ∀ n ∈ names, Plain n) :
    needsDir (names.foldl join path) = false := by
  induction names using List.reverseRecOn with
  | nil => exact absurd rfl hne
  | append_singleton names n _ =>
    rw [List.foldl_append]
    exact needsDir_join_plain (h n (List.mem_append_right _ List.mem_cons_self)) _

end Plain

/-! ## Lexical resolution -/

/-- One component more, after a path that is resolved. -/
def resolveStep (cs : List Component) : Component → List Component
  | .rootDir => [.rootDir]
  | .curDir => cs
  | .normal name => cs ++ [.normal name]
  | .parentDir =>
    match cs.getLast? with
    | some .rootDir => cs
    | some (.normal _) => cs.dropLast
    | _ => cs ++ [.parentDir]

/-- The path without `.` and without a name and the `..` after it. -/
def resolve (cs : List Component) : List Component := cs.foldl resolveStep []

/-- The path is `base` or lies under it, as far as the two texts tell. -/
def Beneath (base cs : List Component) : Prop :=
  ∃ names : List String, resolve cs = resolve base ++ names.map .normal

def Component.name? : Component → Option String
  | .normal name => some name
  | _ => none

section Resolve

variable {base cs : List Component}

theorem beneath_iff : Beneath base cs ↔ resolve cs = resolve base ++
    (((resolve cs).drop (resolve base).length).filterMap Component.name?).map .normal := by
  refine ⟨?_, fun h => ⟨_, h⟩⟩
  rintro ⟨names, h⟩
  have hnames : (names.map Component.normal).filterMap Component.name? = names := by
    rw [List.filterMap_map]
    exact List.filterMap_some
  rw [h, List.drop_left, hnames]

instance : DecidablePred (Beneath base) := fun _ => decidable_of_iff _ beneath_iff.symm

theorem beneath_refl (base : List Component) : Beneath base base := ⟨[], (List.append_nil _).symm⟩

theorem resolve_append_names (cs : List Component) (names : List String) :
    resolve (cs ++ names.map .normal) = resolve cs ++ names.map .normal := by
  induction names using List.reverseRecOn with
  | nil => rw [List.map_nil, List.append_nil, List.append_nil]
  | append_singleton names name ih =>
    rw [List.map_append, ← List.append_assoc, resolve, List.foldl_append, ← resolve, ih,
      ← List.append_assoc]
    rfl

/-- **Descending by names stays beneath.** -/
theorem Beneath.append_names (h : Beneath base cs) (names : List String) :
    Beneath base (cs ++ names.map .normal) := by
  obtain ⟨rest, h⟩ := h
  refine ⟨rest ++ names, ?_⟩
  rw [resolve_append_names, h, List.map_append, List.append_assoc]

/-! ### On the way -/

/-- Each step of the path leads where a step of `base` does, so that it never leaves the way to
`base`: its directories are there when that of `base` is. -/
def OnTheWay (base cs : List Component) : Prop :=
  ∀ p, p <+: cs → ∃ q, q <+: base ∧ resolve p = resolve q

instance : DecidablePred (OnTheWay base) := fun cs =>
  decidable_of_iff (∀ p ∈ cs.inits, ∃ q ∈ base.inits, resolve p = resolve q) (by
    simp only [List.mem_inits, OnTheWay])

theorem OnTheWay.initial {p : List Component} (h : OnTheWay base cs) (hp : p <+: cs) :
    OnTheWay base p := fun _ hq => h _ (hq.trans hp)

theorem onTheWay_initial (h : cs <+: base) : OnTheWay base cs :=
  fun p hp => ⟨p, hp.trans h, rfl⟩

theorem onTheWay_nil (base : List Component) : OnTheWay base [] :=
  onTheWay_initial List.nil_prefix

end Resolve

example : resolve (components "/data/a/./../../etc/x") =
    [.rootDir, .normal "etc", .normal "x"] := by decide

end UnixPath
