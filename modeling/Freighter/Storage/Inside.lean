import Freighter.Storage.System
import Mathlib.Data.Set.List

/-!
# Which paths the filesystem store uses

`absPath` compares components before `..` is resolved, and `pullFile` does without it.

* `System.guard`: a system that refuses some paths; `Confined`: an operation does not notice.
* `bareRoot`: a system with the root and the way to it, and nothing else; it shows which paths
  `create_dir_all` uses.
* **`stays_inside_iff`**: exactly when no operation leaves the root.
-/

namespace Freighter

namespace FsStorage

open FileTree UnixPath

/-! ## A guard -/

section Guard

variable {σ : Type} (P : List Component → Prop) [DecidablePred P]

/-- The system, but it refuses the paths that are not `P`. -/
def System.guard (S : System σ) : System σ where
  read path := if P (components path) then S.read path else Tx.fail .other
  pathExists path s := P path && S.pathExists path s
  isDir path s := P path && S.isDir path s
  mkdir path := if P path then S.mkdir path else Tx.fail .other
  tempIn dir := if P dir then S.tempIn dir else Tx.fail .other
  persist path fileBytes :=
    if P (components path) then S.persist path fileBytes else Tx.fail .other
  readDir path := if P (components path) then S.readDir path else Tx.fail .other
  remove path := if P (components path) then S.remove path else Tx.fail .other

/-- The operation uses no path but those that are `P`, whatever the system does where the root
stands. -/
def Confined {α : Type} (root : String) (operation : ∀ σ : Type, System σ → Tx σ StorageError α) :
    Prop :=
  ∀ (σ : Type) (S : System σ) (I : σ → Prop), Stands S root I →
    ∀ s, I s → operation σ (S.guard P) s = operation σ S s

/-- The root and the way to it are there, and nothing else; what is made is gone again. -/
def bareRoot (root : String) : System Unit where
  read _ := Tx.answer []
  pathExists path _ := path ≠ [] && decide (OnTheWay (components root) path)
  isDir path _ := decide (OnTheWay (components root) path)
  mkdir path :=
    if OnTheWay (components root) path then Tx.fail .other
    else if OnTheWay (components root) path.dropLast then Tx.answer ()
    else Tx.fail .notFound
  tempIn _ := Tx.answer ()
  persist _ _ := Tx.answer ()
  readDir _ := Tx.answer []
  remove _ := Tx.answer ()

theorem stands_bareRoot (root : String) : Stands (bareRoot root) root fun _ => True where
  onTheWay path _ _ hne hpath := by simp [bareRoot, hne, hpath]
  missing path c _ _ h := by
    simp only [bareRoot, List.dropLast_concat] at h
    split_ifs at h with hway hup
    · cases h
    · cases h
    · simp [bareRoot, hup]
  mkdir _ _ _ := trivial

variable {P} {root path : String}

theorem Confined.bareRoot {α : Type} {operation : ∀ σ : Type, System σ → Tx σ StorageError α}
    (h : Confined P root operation) :
    operation Unit ((bareRoot root).guard P) () = operation Unit (FsStorage.bareRoot root) () :=
  h Unit _ _ (stands_bareRoot root) () trivial

theorem confined_pullFile :
    Confined P root (fun _ S => pullFileOn S root path) ↔ P (components (join root path)) := by
  constructor
  · intro h
    by_contra hP
    have hrun := h.bareRoot
    simp only [pullFileOn, System.guard, if_neg hP] at hrun
    cases hrun
  · intro hP σ S I _ s _
    simp only [pullFileOn, System.guard, if_pos hP]

theorem absPath_of_startsWith (h : startsWith (join root path) root = true) :
    absPath root path = .ok (join root path) := if_pos h

theorem absPath_of_not_startsWith (h : ¬ startsWith (join root path) root = true) :
    absPath root path = .error .serviceError := if_neg h

theorem confined_deleteFile : Confined P root (fun _ S => deleteFileOn S root path) ↔
    (startsWith (join root path) root = true → P (components (join root path))) := by
  by_cases hs : startsWith (join root path) root = true
  · have habs := absPath_of_startsWith hs
    constructor
    · intro h _
      by_contra hP
      have hrun := h.bareRoot
      simp only [deleteFileOn, habs, System.guard, if_neg hP] at hrun
      cases hrun
    · intro hP σ S I _ s _
      simp only [deleteFileOn, habs, System.guard, if_pos (hP hs)]
  · refine ⟨fun _ h => absurd h hs, fun _ σ S I _ s _ => ?_⟩
    simp only [deleteFileOn, absPath_of_not_startsWith hs]

/-! ### Making directories -/

/-- Each directory up to `dir` that has to be made is `P`. -/
def MakesOnly (P : List Component → Prop) (root : String) (dir : List Component) : Prop :=
  ∀ q, q <+: dir → OnTheWay (components root) q ∨ P q

theorem mkdirOn_guard (S : System σ) {dir : List Component} (h : P dir) :
    mkdirOn (S.guard P) dir = mkdirOn S dir := by
  have hmk : (S.guard P).mkdir dir = S.mkdir dir := if_pos h
  have hdir : (S.guard P).isDir dir = S.isDir dir := by
    funext s
    simp only [System.guard, h, decide_true, Bool.true_and]
  unfold mkdirOn
  rw [hmk, hdir]

/-- **`create_dir_all` goes up until it is on the way to the root.** -/
theorem createDirAllOn_guard {S : System σ} {I : σ → Prop} (hS : Stands S root I)
    {dir : List Component} (hP : MakesOnly P root dir)
    (hway : dir ≠ [] → ¬ OnTheWay (components root) dir) {s : σ} (hs : I s) :
    createDirAllOn (S.guard P) dir.reverse s = createDirAllOn S dir.reverse s := by
  induction dir using List.reverseRecOn generalizing s with
  | nil => rfl
  | append_singleton up c ih =>
    have hdir : P (up ++ [c]) :=
      (hP _ List.prefix_rfl).resolve_left (hway (List.append_ne_nil_of_right_ne_nil _ (by simp)))
    have hmk : (S.guard P).mkdir (up ++ [c]) s = S.mkdir (up ++ [c]) s := by
      simp only [System.guard, if_pos hdir]
    by_cases hmissing : (S.mkdir (up ++ [c]) s).1 = .error .notFound
    · have hboth : S.mkdir (up ++ [c]) s = (.error .notFound, (S.mkdir (up ++ [c]) s).2) :=
        Prod.ext hmissing rfl
      have hup : up ≠ [] → ¬ OnTheWay (components root) up := by
        intro hne hway
        have hthere := hS.onTheWay up s hs hne hway
        rw [hS.missing up c s hs hmissing] at hthere
        cases hthere
      have hrest := ih (fun q hq => hP q (hq.trans (List.prefix_append _ _))) hup
        (hS.mkdir (up ++ [c]) s hs)
      rw [createDirAllOn_missing (hmk.trans hboth), createDirAllOn_missing hboth,
        mkdirOn_guard S hdir]
      exact Tx.bind_congr hrest
    · rw [createDirAllOn_of_ne (by rwa [hmk]), createDirAllOn_of_ne hmissing, mkdirOn_guard S hdir]

theorem tempFileOn_guard {S : System σ} {I : σ → Prop} (hS : Stands S root I)
    {dir : List Component} (hdir : P dir) (hP : MakesOnly P root dir) {s : σ} (hs : I s) :
    tempFileOn (S.guard P) dir s = tempFileOn S dir s := by
  have hexists : (S.guard P).pathExists dir s = S.pathExists dir s := by
    simp only [System.guard, hdir, decide_true, Bool.true_and]
  have htemp : (S.guard P).tempIn dir = S.tempIn dir := if_pos hdir
  have hparent : createParentOn (S.guard P) dir s = createParentOn S dir s := by
    unfold createParentOn
    rw [hexists]
    by_cases hex : S.pathExists dir s = true
    · rw [if_pos hex, if_pos hex]
    · rw [if_neg hex, if_neg hex]
      exact createDirAllOn_guard hS hP (fun hne hway => hex (hS.onTheWay dir s hs hne hway)) hs
  unfold tempFileOn
  rw [htemp]
  exact Tx.bind_congr hparent

/-- Where a directory is refused that has to be made, `create_dir_all` ends. -/
theorem createDirAllOn_refused {dir q : List Component} (hq : q <+: dir)
    (hway : ¬ OnTheWay (components root) q) (hP : ¬ P q) :
    createDirAllOn ((bareRoot root).guard P) dir.reverse () = (.error .other, ()) := by
  induction dir using List.reverseRecOn with
  | nil => exact absurd (List.prefix_nil.mp hq ▸ onTheWay_nil _) hway
  | append_singleton up c ih =>
    by_cases hdir : P (up ++ [c])
    · have hup : q <+: up := (List.prefix_concat_iff.mp hq).resolve_left fun h => hP (h ▸ hdir)
      have hmk : ((bareRoot root).guard P).mkdir (up ++ [c]) () = (.error .notFound, ()) := by
        have h₁ : ¬ OnTheWay (components root) (up ++ [c]) := fun h => hway (h.initial hq)
        have h₂ : ¬ OnTheWay (components root) up := fun h => hway (h.initial hup)
        simp only [System.guard, if_pos hdir, bareRoot, if_neg h₁, List.dropLast_concat, if_neg h₂]
        rfl
      rw [createDirAllOn_missing hmk]
      exact Tx.bind_of_error (ih hup)
    · have hmk : ((bareRoot root).guard P).mkdir (up ++ [c]) () = (.error .other, ()) := by
        simp only [System.guard, if_neg hdir]
        rfl
      rw [createDirAllOn_of_ne (by rw [hmk]; simp), mkdirOn, hmk]
      simp [System.guard, hdir]

variable (root) in
/-- Without the guard it may run into a missing directory, and nothing else. -/
theorem createDirAllOn_bareRoot {dir : List Component}
    (hway : ¬ OnTheWay (components root) dir) :
    (createDirAllOn (bareRoot root) dir.reverse ()).1 ≠ .error .other := by
  induction dir using List.reverseRecOn with
  | nil => exact absurd (onTheWay_nil _) hway
  | append_singleton up c ih =>
    by_cases hup : OnTheWay (components root) up
    · have hmk : (bareRoot root).mkdir (up ++ [c]) () = (.ok (), ()) := by
        simp only [bareRoot, if_neg hway, List.dropLast_concat, if_pos hup]
        rfl
      rw [createDirAllOn_of_ne (by rw [hmk]; simp), mkdirOn, hmk]
      simp
    · have hmk : (bareRoot root).mkdir (up ++ [c]) () = (.error .notFound, ()) := by
        simp only [bareRoot, if_neg hway, List.dropLast_concat, if_neg hup]
        rfl
      rw [createDirAllOn_missing hmk]
      cases hrest : createDirAllOn (bareRoot root) up.reverse () with
      | mk r s =>
        have hr := ih hup
        rw [hrest] at hr
        cases r with
        | error e =>
          rw [Tx.bind_of_error hrest]
          exact hr
        | ok _ =>
          rw [Tx.bind_of_ok hrest, mkdirOn, hmk]
          simp [bareRoot, hway]

/-- On the way to the root there is nothing to make. -/
theorem tempFileOn_bareRoot {dir : List Component} (hway : OnTheWay (components root) dir) :
    tempFileOn (bareRoot root) dir () = (.ok (), ()) := by
  have hparent : createParentOn (bareRoot root) dir () = (.ok (), ()) := by
    by_cases hne : dir = []
    · rw [hne]
      rfl
    · exact if_pos (by simp [bareRoot, hne, hway])
  exact Tx.bind_of_ok hparent

variable (P root) in
theorem tempFileOn_refused {dir q : List Component} (hq : q <+: dir)
    (hway : ¬ OnTheWay (components root) q) (hP : ¬ P q) :
    tempFileOn ((bareRoot root).guard P) dir () = (.error .other, ()) ∧
      (tempFileOn (bareRoot root) dir ()).1 ≠ .error .other := by
  have hdir : ¬ OnTheWay (components root) dir := fun h => hway (h.initial hq)
  have hparent : createParentOn (bareRoot root) dir () =
      createDirAllOn (bareRoot root) dir.reverse () := if_neg (by simp [bareRoot, hdir])
  have hguarded : createParentOn ((bareRoot root).guard P) dir () =
      createDirAllOn ((bareRoot root).guard P) dir.reverse () :=
    if_neg (by simp [System.guard, bareRoot, hdir])
  rw [createDirAllOn_refused hq hway hP] at hguarded
  refine ⟨Tx.bind_of_error hguarded, ?_⟩
  have hfree := createDirAllOn_bareRoot root hdir
  cases hmk : createDirAllOn (bareRoot root) dir.reverse () with
  | mk r s =>
    rw [hmk] at hparent hfree
    unfold tempFileOn
    cases r with
    | error e =>
      rw [Tx.bind_of_error hparent]
      exact hfree
    | ok _ =>
      rw [Tx.bind_of_ok hparent]
      exact nofun

/-- No file is put where its directory is refused. -/
theorem tempFileOn_ne_ok (S : System σ) {dir : List Component} (h : ¬ P dir) (s : σ) :
    (tempFileOn (S.guard P) dir s).1 ≠ .ok () := by
  intro hok
  have hpair : tempFileOn (S.guard P) dir s = (.ok (), (tempFileOn (S.guard P) dir s).2) :=
    Prod.ext hok rfl
  obtain ⟨_, _, -, htemp⟩ := Tx.bind_eq_ok.mp hpair
  simp only [System.guard, if_neg h] at htemp
  cases htemp

theorem putFileOn_eq (S : System σ) (hs : startsWith (join root path) root = true)
    {dir : List Component} (hdir : parent (join root path) = some dir) (fileBytes : Bytes) :
    putFileOn S root path fileBytes = (tempFileOn S dir).mapError ofIoError >>= fun _ =>
      (S.persist (join root path) fileBytes).mapError fun _ => .serviceError := by
  simp only [putFileOn, absPath_of_startsWith hs, hdir]

/-- A directory that is made, and refused, shows in what `putFile` answers. -/
theorem makesOnly_of_putFileOn {fileBytes : Bytes} {dir : List Component}
    (hs : startsWith (join root path) root = true) (hparent : parent (join root path) = some dir)
    (hrun : putFileOn ((bareRoot root).guard P) root path fileBytes () =
      putFileOn (bareRoot root) root path fileBytes ()) : MakesOnly P root dir := by
  intro q hq
  by_contra hc
  obtain ⟨hway, hP⟩ := not_or.mp hc
  obtain ⟨hguarded, hfree⟩ := tempFileOn_refused P root hq hway hP
  rw [putFileOn_eq _ hs hparent, putFileOn_eq _ hs hparent] at hrun
  have hleft := Tx.mapError_apply ofIoError (tempFileOn ((bareRoot root).guard P) dir) ()
  have hright := Tx.mapError_apply ofIoError (tempFileOn (bareRoot root) dir) ()
  rw [hguarded] at hleft
  rw [Tx.bind_of_error hleft] at hrun
  cases htemp : tempFileOn (bareRoot root) dir () with
  | mk r s =>
    rw [htemp] at hright hfree
    cases r with
    | ok _ =>
      rw [Tx.bind_of_ok hright] at hrun
      cases hrun
    | error e =>
      rw [Tx.bind_of_error hright] at hrun
      cases e with
      | notFound => cases hrun
      | other => exact hfree rfl

/-- The directory itself is used, also where there is nothing to make. -/
theorem parent_of_putFileOn {fileBytes : Bytes} {dir : List Component}
    (hs : startsWith (join root path) root = true) (hparent : parent (join root path) = some dir)
    (hrun : putFileOn ((bareRoot root).guard P) root path fileBytes () =
      putFileOn (bareRoot root) root path fileBytes ()) : P dir := by
  by_contra hP
  have hmakes := makesOnly_of_putFileOn hs hparent hrun
  have hway := (hmakes dir List.prefix_rfl).resolve_right hP
  have htemp := Tx.mapError_apply ofIoError (tempFileOn (bareRoot root) dir) ()
  rw [tempFileOn_bareRoot hway] at htemp
  rw [putFileOn_eq _ hs hparent, putFileOn_eq _ hs hparent, Tx.bind_of_ok htemp] at hrun
  obtain ⟨_, _, hguarded, -⟩ := Tx.bind_eq_ok.mp hrun
  rw [Tx.mapError_apply] at hguarded
  exact tempFileOn_ne_ok (bareRoot root) hP () (Tx.mapError_ok_iff.mp (congrArg Prod.fst hguarded))

theorem putFileOn_guard {S : System σ} {I : σ → Prop} (hS : Stands S root I) {fileBytes : Bytes}
    (hpath : P (components (join root path)))
    (hP : startsWith (join root path) root = true → ∀ dir, parent (join root path) = some dir →
      P dir ∧ MakesOnly P root dir) {s : σ} (hs : I s) :
    putFileOn (S.guard P) root path fileBytes s = putFileOn S root path fileBytes s := by
  by_cases hstarts : startsWith (join root path) root = true
  · cases hparent : parent (join root path) with
    | none => simp only [putFileOn, absPath_of_startsWith hstarts, hparent]
    | some dir =>
      obtain ⟨hdir, hmakes⟩ := hP hstarts dir hparent
      have htemp := tempFileOn_guard hS hdir hmakes hs
      have hpersist : (S.guard P).persist (join root path) fileBytes =
          S.persist (join root path) fileBytes := if_pos hpath
      rw [putFileOn_eq _ hstarts hparent, putFileOn_eq _ hstarts hparent, hpersist]
      refine Tx.bind_congr ?_
      rw [Tx.mapError_apply, Tx.mapError_apply, htemp]
  · simp only [putFileOn, absPath_of_not_startsWith hstarts]

/-- **`putFile` uses its path, the directory of it, and those that it makes.** -/
theorem confined_putFile (fileBytes : Bytes) (hpath : P (components (join root path))) :
    Confined P root (fun _ S => putFileOn S root path fileBytes) ↔
      (startsWith (join root path) root = true → ∀ dir, parent (join root path) = some dir →
        P dir ∧ MakesOnly P root dir) := by
  constructor
  · intro h hs dir hparent
    exact ⟨parent_of_putFileOn hs hparent h.bareRoot, makesOnly_of_putFileOn hs hparent h.bareRoot⟩
  · intro hP σ S I hS s hI
    exact putFileOn_guard hS hpath hP hI

theorem foldlM_congr {α β : Type} {m : Type → Type} [Monad m] {f g : β → α → m β} {l : List α}
    (h : ∀ a ∈ l, ∀ b, f b a = g b a) (b : β) : l.foldlM f b = l.foldlM g b := by
  induction l generalizing b with
  | nil => rfl
  | cons a l ih =>
    rw [List.foldlM_cons, List.foldlM_cons, h a List.mem_cons_self]
    congr 1
    funext b'
    exact ih (fun a' ha' => h a' (List.mem_cons_of_mem _ ha')) b'

/-- **The recursion goes down by names.** -/
theorem appendDirOn_guard (hP : ∀ cs (ns : List String), P cs → P (cs ++ ns.map .normal))
    (S : System σ) (fuel : ℕ) {path : String} (hpath : P (components path)) (out : List String) :
    appendDirOn (S.guard P) fuel path out = appendDirOn S fuel path out := by
  induction fuel generalizing path out with
  | zero => rfl
  | succ fuel ih =>
    unfold appendDirOn
    simp only [System.guard, if_pos hpath]
    congr 1
    funext entries
    refine foldlM_congr (fun e _ out => ?_) out
    have hentry : P (components (join path e.1)) := by
      have hplain : ∀ n ∈ [e.1.1], Plain n := fun n hn => List.mem_singleton.mp hn ▸ e.1.2
      have hcomponents : components (join path e.1) = components path ++ [e.1.1].map .normal :=
        components_joins hplain
      rw [hcomponents]
      exact hP _ _ hpath
    by_cases hdir : e.2 = true
    · simp only [hdir, if_true]
      rw [← ih hentry out]
      rfl
    · simp only [hdir, Bool.false_eq_true, if_false]

theorem confined_listPrefix (hP : ∀ cs (ns : List String), P cs → P (cs ++ ns.map .normal)) :
    (∀ fuel, Confined P root fun _ S => listPrefixOn S fuel root path) ↔
      (startsWith (join root path) root = true → P (components (join root path))) := by
  by_cases hs : startsWith (join root path) root = true
  · have habs := absPath_of_startsWith hs
    constructor
    · intro h _
      by_contra hP
      have hrun := (h 1).bareRoot
      simp only [listPrefixOn, habs, appendDirOn, System.guard, if_neg hP] at hrun
      cases hrun
    · intro hpath fuel σ S I _ s _
      simp only [listPrefixOn, habs]
      rw [appendDirOn_guard hP S fuel (hpath hs) []]
  · refine ⟨fun _ h => absurd h hs, fun _ fuel σ S I _ s _ => ?_⟩
    simp only [listPrefixOn, absPath_of_not_startsWith hs]

end Guard

/-! ## The root -/

/-- The path is the root or lies under it. -/
abbrev Inside (root : String) : List Component → Prop := Beneath (components root)

/-- What the store should promise for an argument. -/
structure StaysInside (root path : String) : Prop where
  absPath : ∀ p, absPath root path = .ok p → Inside root (components p)
  pullFile : Confined (Inside root) root fun _ S => pullFileOn S root path
  putFile : ∀ fileBytes, Confined (Inside root) root fun _ S => putFileOn S root path fileBytes
  listPrefix : ∀ fuel, Confined (Inside root) root fun _ S => listPrefixOn S fuel root path
  deleteFile : Confined (Inside root) root fun _ S => deleteFileOn S root path

/-- The argument leads from the root to the root or below it. If the test of the prefixes lets it
through, so does its parent, and so does each step to the parent that is not on the way to the
root. -/
def LeadsInside (root path : String) : Prop :=
  Inside root (components (join root path)) ∧
    (startsWith (join root path) root = true → ∀ dir, parent (join root path) = some dir →
      Inside root dir ∧ ∀ q, q <+: dir → OnTheWay (components root) q ∨ Inside root q)

/-- **Exactly when the store stays inside its root**: when the argument, joined to the root and
resolved, ends there, and unless it is refused its parent does too and no directory outside is
entered but those on the way to the root. -/
theorem stays_inside_iff (root path : String) : StaysInside root path ↔ LeadsInside root path := by
  have hdown : ∀ cs (ns : List String), Inside root cs → Inside root (cs ++ ns.map .normal) :=
    fun cs ns h => h.append_names ns
  constructor
  · intro h
    have hpath := confined_pullFile.mp h.pullFile
    exact ⟨hpath, (confined_putFile [] hpath).mp (h.putFile [])⟩
  · rintro ⟨hpath, hparent⟩
    refine ⟨fun p hp => ?_, confined_pullFile.mpr hpath, fun fileBytes => ?_, ?_, ?_⟩
    · unfold FsStorage.absPath at hp
      simp only at hp
      split_ifs at hp
      cases hp
      exact hpath
    · exact (confined_putFile fileBytes hpath).mpr hparent
    · exact (confined_listPrefix hdown).mpr fun _ => hpath
    · exact confined_deleteFile.mpr fun _ => hpath

/-- What a relative argument adds to the root. -/
theorem exists_components_join {path : String} (root : String) (h : isAbsolute path = false) :
    ∃ start, Inside root start ∧
      (∀ q, q <+: start → OnTheWay (components root) q ∨ Inside root q) ∧
      components (join root path) = start ++ (pieces path).filterMap Component.ofPiece := by
  by_cases hroot : root = ""
  · subst hroot
    rw [join_empty_left]
    by_cases hdot : (pieces path).head? = some ['.']
    · refine ⟨[.curDir], ⟨[], rfl⟩, fun q hq => Or.inr ?_, ?_⟩
      · rcases List.prefix_cons_iff.mp hq with rfl | ⟨rest, rfl, hrest⟩
        · exact ⟨[], rfl⟩
        · rw [List.prefix_nil.mp hrest]
          exact ⟨[], rfl⟩
      · simp only [components, h, Bool.false_eq_true, if_false, if_pos hdot]
    · refine ⟨[], ⟨[], rfl⟩, fun q hq => Or.inr ?_, ?_⟩
      · rw [List.prefix_nil.mp hq]
        exact ⟨[], rfl⟩
      · simp only [components, h, Bool.false_eq_true, if_false, if_neg hdot]
  · exact ⟨components root, beneath_refl _, fun q hq => Or.inl (onTheWay_initial hq),
      components_join hroot h⟩

/-- Without `..` the pieces of a path are names. -/
theorem exists_names_of_no_parentDir {ps : List (List Char)}
    (h : .parentDir ∉ ps.filterMap Component.ofPiece) :
    ∃ ns : List String, ps.filterMap Component.ofPiece = ns.map .normal := by
  have hrange : ps.filterMap Component.ofPiece ∈ Set.range (List.map Component.normal) := by
    rw [Set.range_list_map]
    intro c hc
    obtain ⟨piece, -, hpiece⟩ := List.mem_filterMap.mp hc
    cases c with
    | normal name => exact ⟨name, rfl⟩
    | parentDir => exact absurd hc h
    | rootDir | curDir =>
      unfold Component.ofPiece at hpiece
      split at hpiece <;> cases hpiece
  obtain ⟨ns, hns⟩ := hrange
  exact ⟨ns, hns.symm⟩

/-- **A relative argument with a name and without `..`** leads inside, whatever its dots and
slashes. -/
theorem leadsInside_of_relative {root path : String} (h : isAbsolute path = false)
    (hup : .parentDir ∉ (pieces path).filterMap Component.ofPiece)
    (hname : (pieces path).filterMap Component.ofPiece ≠ []) : LeadsInside root path := by
  obtain ⟨ns, hns⟩ := exists_names_of_no_parentDir hup
  obtain ⟨start, hstart, hway, hjoin⟩ := exists_components_join root h
  rw [hns] at hjoin hname
  obtain ⟨before, last, rfl⟩ := ns.eq_nil_or_concat.resolve_left fun hnil =>
    hname (by rw [hnil]; rfl)
  rw [List.concat_eq_append, List.map_append] at hjoin
  constructor
  · rw [hjoin, ← List.map_append]
    exact hstart.append_names _
  · intro _ dir hdir
    unfold parent at hdir
    rw [hjoin, ← List.append_assoc] at hdir
    simp only [List.map_cons, List.map_nil, List.getLast?_concat, List.dropLast_concat,
      Option.some.injEq] at hdir
    rw [← hdir]
    refine ⟨hstart.append_names _, fun q hq => ?_⟩
    rcases List.prefix_or_prefix_of_prefix hq (List.prefix_append start _) with hq' | ⟨rest, rfl⟩
    · exact hway q hq'
    · obtain ⟨names, -, rfl⟩ := List.prefix_map_iff.mp ((List.prefix_append_right_inj start).mp hq)
      exact Or.inr (hstart.append_names names)

/-- An argument that climbs passes the test, one that climbs and comes back makes what is missing on
its way, and an absolute one is opened without the test. -/
theorem leaves_root :
    FsStorage.absPath "/data" "../etc/passwd" = .ok "/data/../etc/passwd" ∧
      resolve (components "/data/../etc/passwd") =
        [.rootDir, .normal "etc", .normal "passwd"] ∧
      ¬ Inside "/data" (components "/data/../etc/passwd") ∧
      ¬ StaysInside "/data" "../etc/passwd" ∧ ¬ StaysInside "/data" "../evil/../data/x" ∧
      ¬ StaysInside "/data" "/etc/passwd" := by
  refine ⟨by decide, by decide, by decide, fun h => ?_, fun h => ?_, fun h => ?_⟩
  · exact absurd (confined_pullFile.mp h.pullFile) (by decide)
  · have hputs := (confined_putFile [] (by decide)).mp (h.putFile []) (by decide)
      (components "/data/../evil/../data") (by decide)
    exact absurd (hputs.2 (components "/data/../evil") (by decide)) (by decide)
  · exact absurd (confined_pullFile.mp h.pullFile) (by decide)

end FsStorage

end Freighter
