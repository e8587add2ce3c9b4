import Freighter.Lib.StableSort
import Freighter.Types.Index
import Mathlib.Data.List.Perm.Basic
import Mathlib.Data.Multiset.Basic
import Mathlib.Data.Prod.Lex
import Mathlib.Data.String.Basic
import Mathlib.Order.WithBot

/-!
# Normal forms of index entries

`CrateVersion::normalize` moves the features of `features2` into `features` and sorts the
dependencies.

* `CrateVersion.normalize`; `lookup_normalize`, `normalize_deps`: what it gives.
* **`CrateVersion.preserved_iff`**: when an entry keeps its meaning;
  **`CrateVersion.identical_normalize_normalize`**.
* **`CrateVersion.identical_normalize_iff`**: when two equivalent entries get one normal form.
-/

namespace Freighter

/-! ## The normal form -/

/-- `derive(Ord)`: the kinds in the order of their declaration. -/
def DependencyKind.rank : DependencyKind → ℕ
  | .normal => 0
  | .dev => 1
  | .build => 2

/-- `None` comes first. -/
def optionKey : Option String → WithBot String
  | none => ⊥
  | some s => (s : WithBot String)

/-- The key that dependencies are sorted by. -/
def Dependency.sortKey (x : Dependency) :
    WithBot String ×ₗ String ×ₗ WithBot String ×ₗ String ×ₗ ℕ ×ₗ WithBot String :=
  toLex (optionKey x.registry, toLex (x.name, toLex (optionKey x.package,
    toLex (x.req.display, toLex (x.kind.rank, optionKey x.target)))))

def Dependency.sortFeatures (d : Dependency) : Dependency :=
  { d with features := sortByKey id d.features }

namespace CrateVersion

def normalizeFeatures (c : CrateVersion) : CrateVersion :=
  { c with
    features := c.features2.iter.foldl (fun m e => m.insert e.1 (sortByKey id e.2)) c.features
    features2 := ∅ }

def normalizeDependencies (c : CrateVersion) : CrateVersion :=
  { c with deps := sortByKey Dependency.sortKey (c.deps.map Dependency.sortFeatures) }

def normalize (c : CrateVersion) : CrateVersion := c.normalizeFeatures.normalizeDependencies

/-- **The features of the normal form.** Those of `features2` are sorted and take the place of those
of `features`, which stay as they are. -/
theorem lookup_normalize (c : CrateVersion) (k : String) :
    c.normalize.features.lookup k =
      ((c.features2.lookup k).map (sortByKey id)).or (c.features.lookup k) :=
  HashMap.lookup_foldl_insert (sortByKey id) c.features c.features2 k

theorem normalize_deps (c : CrateVersion) :
    c.normalize.deps = sortByKey Dependency.sortKey (c.deps.map Dependency.sortFeatures) := rfl

end CrateVersion

/-! ## Meaning -/

/-- The dependencies differ at most in the order of their features. -/
def Dependency.Reordered (x y : Dependency) : Prop :=
  ∃ features, x.features.Perm features ∧ y = { x with features }

/-- The dependencies differ at most in their order and that of their features. -/
def ReorderedDeps (l m : List Dependency) : Prop :=
  ∃ n, List.Forall₂ Dependency.Reordered l n ∧ n.Perm m

namespace CrateVersion

/-- The actions of a feature in the two maps, in any order. -/
def actions (c : CrateVersion) (name : String) : Option (Multiset String) :=
  (c.mergedFeatures name).map Multiset.ofList

/-- The entries agree in the fields that are neither features nor dependencies. -/
structure SameFields (a b : CrateVersion) : Prop where
  name : b.name = a.name
  vers : b.vers = a.vers
  cksum : b.cksum = a.cksum
  yanked : b.yanked = a.yanked
  links : b.links = a.links
  v : b.v = a.v

/-- **Functionally equivalent entries.** -/
structure Equivalent (a b : CrateVersion) : Prop where
  fields : SameFields a b
  actions : ∀ name, a.actions name = b.actions name
  deps : ReorderedDeps a.deps b.deps

/-- `PartialEq`: the maps are compared key by key. -/
structure Identical (a b : CrateVersion) : Prop where
  fields : SameFields a b
  features : ∀ name, a.features.lookup name = b.features.lookup name
  features2 : ∀ name, a.features2.lookup name = b.features2.lookup name
  deps : a.deps = b.deps

/-- **The normal form means what the entry means.** -/
structure Preserved (c : CrateVersion) : Prop where
  features2 : c.normalize.features2 = ∅
  actions : ∀ name, (c.normalize.features.lookup name).map Multiset.ofList = c.actions name
  deps : ReorderedDeps c.deps c.normalize.deps
  fields : SameFields c c.normalize

end CrateVersion

/-! ## Dependencies -/

theorem Dependency.reordered_iff {x y : Dependency} :
    x.Reordered y ↔ x.sortFeatures = y.sortFeatures := by
  constructor
  · rintro ⟨features, hperm, rfl⟩
    simp only [sortFeatures, sort_eq_iff.mpr hperm]
  · intro h
    have hfeatures := congrArg Dependency.features h
    refine ⟨y.features, sort_eq_iff.mp hfeatures, ?_⟩
    cases x
    cases y
    simp only [sortFeatures, mk.injEq] at h
    simp only [mk.injEq, true_and]
    exact ⟨h.1.symm, h.2.1.symm, h.2.2.2.imp Eq.symm fun h => by simp [h]⟩

theorem Dependency.reordered_refl (d : Dependency) : d.Reordered d := reordered_iff.mpr rfl

theorem Dependency.sortFeatures_sortFeatures (d : Dependency) :
    d.sortFeatures.sortFeatures = d.sortFeatures :=
  Dependency.reordered_iff.mp ⟨d.features, perm_sortByKey id d.features, rfl⟩

theorem forall₂_reordered_iff {l m : List Dependency} : List.Forall₂ Dependency.Reordered l m ↔
    l.map Dependency.sortFeatures = m.map Dependency.sortFeatures := by
  have hrel : Dependency.Reordered = fun x y => x.sortFeatures = y.sortFeatures := by
    ext x y
    exact Dependency.reordered_iff
  rw [hrel, ← List.forall₂_eq_eq_eq, List.forall₂_map_left_iff, List.forall₂_map_right_iff]

/-- **Reordered dependencies** are those that are permutations of each other once their features are
sorted. -/
theorem reorderedDeps_iff {l m : List Dependency} : ReorderedDeps l m ↔
    (l.map Dependency.sortFeatures).Perm (m.map Dependency.sortFeatures) := by
  have hcomp := congrFun (congrFun (List.eq_map_comp_perm Dependency.sortFeatures)
    (l.map Dependency.sortFeatures)) m
  rw [← hcomp]
  exact exists_congr fun n => and_congr_left' forall₂_reordered_iff

/-- The dependencies of a normal form have their features sorted. -/
theorem CrateVersion.map_sortFeatures_normalize (c : CrateVersion) :
    c.normalize.deps.map Dependency.sortFeatures = c.normalize.deps := by
  refine (List.map_congr_left fun d hd => ?_).trans (List.map_id _)
  obtain ⟨x, -, rfl⟩ := List.mem_map.mp ((perm_sortByKey _ _).mem_iff.mp hd)
  exact x.sortFeatures_sortFeatures

/-- **The dependencies of the normal form are those of the entry.** -/
theorem CrateVersion.reorderedDeps_normalize (c : CrateVersion) :
    ReorderedDeps c.deps c.normalize.deps := by
  rw [reorderedDeps_iff, c.map_sortFeatures_normalize]
  exact (perm_sortByKey _ _).symm

/-- The dependencies of one sort key stand in one order, but for the order of their features. -/
def SameOrder (l m : List Dependency) : Prop :=
  ∀ key, List.Forall₂ Dependency.Reordered (l.filter fun d => d.sortKey = key)
    (m.filter fun d => d.sortKey = key)

/-- **Dependencies get one normal form** iff those of one sort key stand in one order. -/
theorem normalize_deps_eq_iff {a b : CrateVersion} :
    a.normalize.deps = b.normalize.deps ↔ SameOrder a.deps b.deps := by
  have hfilter : ∀ (l : List Dependency) key,
      (l.map Dependency.sortFeatures).filter (fun d => d.sortKey = key) =
        (l.filter fun d => d.sortKey = key).map Dependency.sortFeatures :=
    fun l key => List.filter_map
  rw [CrateVersion.normalize_deps, CrateVersion.normalize_deps, sortByKey_eq_iff]
  refine forall_congr' fun key => ?_
  rw [hfilter, hfilter, forall₂_reordered_iff]

/-! ## Features -/

namespace CrateVersion

variable {a b c : CrateVersion} {name : String} {more : List String}

/-- The actions of a feature in `features`. -/
def listed (c : CrateVersion) (name : String) : List String := (c.features.lookup name).getD []

/-- Those that are overwritten, since `features2` has the feature too. -/
def lost (c : CrateVersion) (name : String) : List String :=
  if name ∈ c.features2 then c.listed name else []

theorem lost_of_none (h : c.features2.lookup name = none) : c.lost name = [] :=
  if_neg (AList.lookup_eq_none.mp h)

theorem lost_of_some (h : c.features2.lookup name = some more) : c.lost name = c.listed name :=
  if_pos (HashMap.mem_of_lookup h)

theorem lookup_normalize_of_none (h : c.features2.lookup name = none) :
    c.normalize.features.lookup name = c.features.lookup name := by
  rw [lookup_normalize, h, Option.map_none, Option.none_or]

theorem lookup_normalize_of_some (h : c.features2.lookup name = some more) :
    c.normalize.features.lookup name = some (sortByKey id more) := by
  rw [lookup_normalize, h, Option.map_some, Option.some_or]

theorem actions_of_none (h : c.features2.lookup name = none) :
    c.actions name = (c.features.lookup name).map Multiset.ofList := by
  unfold actions mergedFeatures
  rw [h]
  cases c.features.lookup name <;> rfl

theorem actions_of_some (h : c.features2.lookup name = some more) :
    c.actions name = some (Multiset.ofList (c.listed name ++ more)) := by
  unfold actions mergedFeatures listed
  rw [h]
  cases c.features.lookup name <;> rfl

/-- **A feature keeps its actions** iff none of them is overwritten. -/
theorem actions_normalize_iff (c : CrateVersion) (name : String) :
    (c.normalize.features.lookup name).map Multiset.ofList = c.actions name ↔
      c.lost name = [] := by
  cases h : c.features2.lookup name with
  | none =>
    rw [lookup_normalize_of_none h, actions_of_none h, lost_of_none h]
    exact iff_of_true rfl rfl
  | some more =>
    rw [lookup_normalize_of_some h, actions_of_some h, lost_of_some h, Option.map_some,
      Option.some.injEq, Multiset.coe_eq_coe, ← List.length_eq_zero_iff]
    constructor
    · intro hperm
      have hlen := hperm.length_eq
      rw [(perm_sortByKey id more).length_eq, List.length_append] at hlen
      omega
    · intro hlen
      rw [List.length_eq_zero_iff.mp hlen, List.nil_append]
      exact perm_sortByKey id more

/-- **Exactly when the normal form means what the entry means**: when no feature of `features2` has
actions in `features`. -/
theorem preserved_iff (c : CrateVersion) : Preserved c ↔ ∀ name, c.lost name = [] := by
  constructor
  · intro h name
    exact (c.actions_normalize_iff name).mp (h.actions name)
  · intro h
    exact ⟨rfl, fun name => (c.actions_normalize_iff name).mpr (h name), c.reorderedDeps_normalize,
      ⟨rfl, rfl, rfl, rfl, rfl, rfl⟩⟩

/-- **A normal form is its own normal form.** -/
theorem identical_normalize_normalize (c : CrateVersion) :
    Identical c.normalize.normalize c.normalize where
  fields := ⟨rfl, rfl, rfl, rfl, rfl, rfl⟩
  features _ := lookup_normalize_of_none (AList.lookup_empty _)
  features2 _ := rfl
  deps := by
    rw [normalize_deps c.normalize, c.map_sortFeatures_normalize]
    exact sortByKey_eq_self_iff.mpr (pairwise_sortByKey _ _)

/-- Version 0.0.0 of `foo` with features. -/
def fooWith (features features2 : HashMap String (List String)) : CrateVersion where
  name := "foo"
  vers := Version.new 0 0 0
  deps := []
  cksum := List.Vector.replicate 32 0
  features := features
  yanked := false
  links := none
  v := 2
  features2 := features2

/-- A feature in both maps loses an action. -/
theorem not_preserved :
    ¬ Preserved (fooWith (HashMap.collect [("default", ["std"])])
      (HashMap.collect [("default", ["dep:log"])])) := by
  intro h
  have hdefault := h.actions "default"
  revert hdefault
  decide

/-- The feature gets one form in both entries: what is overwritten in one is in the other, a list
that stays beside a list that stays is the same, and beside a list that is sorted it is sorted. -/
structure OneForm (a b : CrateVersion) (name : String) : Prop where
  lost : (a.lost name).Perm (b.lost name)
  stays : name ∉ a.features2 → name ∉ b.features2 →
    a.features.lookup name = b.features.lookup name
  left : name ∉ a.features2 → name ∈ b.features2 → (a.listed name).Pairwise (· ≤ ·)
  right : name ∈ a.features2 → name ∉ b.features2 → (b.listed name).Pairwise (· ≤ ·)

theorem OneForm.symm (h : OneForm a b name) : OneForm b a name where
  lost := h.lost.symm
  stays hb ha := (h.stays ha hb).symm
  left hb ha := h.right ha hb
  right hb ha := h.left ha hb

/-- The feature is in `features2` of both entries. -/
theorem oneForm_of_both {more more' : List String} (ha : a.features2.lookup name = some more)
    (hb : b.features2.lookup name = some more') (h : a.actions name = b.actions name) :
    a.normalize.features.lookup name = b.normalize.features.lookup name ↔ OneForm a b name := by
  have hma := HashMap.mem_of_lookup ha
  have hmb := HashMap.mem_of_lookup hb
  rw [actions_of_some ha, actions_of_some hb, Option.some.injEq, Multiset.coe_eq_coe] at h
  rw [lookup_normalize_of_some ha, lookup_normalize_of_some hb, Option.some.injEq, sort_eq_iff]
  constructor
  · intro hmore
    refine ⟨?_, fun hn => absurd hma hn, fun hn => absurd hma hn, fun _ hn => absurd hmb hn⟩
    rw [lost_of_some ha, lost_of_some hb]
    exact (List.perm_append_right_iff _).mp (h.trans (hmore.symm.append_left _))
  · intro hone
    have hlost := hone.lost
    rw [lost_of_some ha, lost_of_some hb] at hlost
    exact (List.perm_append_left_iff _).mp (h.trans (hlost.symm.append_right _))

/-- The feature is in `features2` of the first entry only. -/
theorem oneForm_of_left {more : List String} (ha : a.features2.lookup name = some more)
    (hb : b.features2.lookup name = none) (h : a.actions name = b.actions name) :
    a.normalize.features.lookup name = b.normalize.features.lookup name ↔ OneForm a b name := by
  have hma := HashMap.mem_of_lookup ha
  have hmb := AList.lookup_eq_none.mp hb
  obtain ⟨values, hvalues⟩ : ∃ values, b.features.lookup name = some values := by
    rw [actions_of_some ha, actions_of_none hb] at h
    cases hv : b.features.lookup name with
    | none => simp [hv] at h
    | some values => exact ⟨values, rfl⟩
  have hlisted : b.listed name = values := by rw [listed, hvalues, Option.getD_some]
  rw [actions_of_some ha, actions_of_none hb, hvalues, Option.map_some, Option.some.injEq,
    Multiset.coe_eq_coe] at h
  rw [lookup_normalize_of_some ha, lookup_normalize_of_none hb, hvalues, Option.some.injEq]
  constructor
  · intro hsort
    refine ⟨?_, fun hn => absurd hma hn, fun hn => absurd hma hn, fun _ _ => ?_⟩
    · rw [lost_of_some ha, lost_of_none hb]
      have hlen := h.length_eq
      rw [List.length_append, ← hsort, (perm_sortByKey id more).length_eq] at hlen
      rw [List.length_eq_zero_iff.mp (by omega : (a.listed name).length = 0)]
    · rw [hlisted, ← hsort]
      exact pairwise_sortByKey id more
  · intro hone
    have hlost := hone.lost
    rw [lost_of_some ha, lost_of_none hb, List.perm_nil] at hlost
    rw [hlost, List.nil_append] at h
    have hsorted := hone.right hma hmb
    rw [hlisted] at hsorted
    exact (sort_eq_iff.mpr h).trans (sortByKey_eq_self_iff.mpr hsorted)

/-- The feature is in neither `features2`. -/
theorem oneForm_of_neither (ha : a.features2.lookup name = none)
    (hb : b.features2.lookup name = none) :
    a.normalize.features.lookup name = b.normalize.features.lookup name ↔ OneForm a b name := by
  have hma := AList.lookup_eq_none.mp ha
  have hmb := AList.lookup_eq_none.mp hb
  rw [lookup_normalize_of_none ha, lookup_normalize_of_none hb]
  constructor
  · intro he
    refine ⟨?_, fun _ _ => he, fun _ hm => absurd hm hmb, fun hm => absurd hm hma⟩
    rw [lost_of_none ha, lost_of_none hb]
  · exact fun hone => hone.stays hma hmb

/-- **A feature gets one form** in two entries that give it the same actions. -/
theorem oneForm_iff (h : a.actions name = b.actions name) :
    a.normalize.features.lookup name = b.normalize.features.lookup name ↔ OneForm a b name := by
  cases ha : a.features2.lookup name with
  | none =>
    cases hb : b.features2.lookup name with
    | none => exact oneForm_of_neither ha hb
    | some more =>
      rw [eq_comm, oneForm_of_left hb ha h.symm]
      exact ⟨OneForm.symm, OneForm.symm⟩
  | some more =>
    cases hb : b.features2.lookup name with
    | none => exact oneForm_of_left ha hb h
    | some more' => exact oneForm_of_both ha hb h

/-- **Exactly when equivalent entries get one normal form.** -/
theorem identical_normalize_iff (h : Equivalent a b) :
    Identical a.normalize b.normalize ↔
      (∀ name, OneForm a b name) ∧ SameOrder a.deps b.deps := by
  constructor
  · intro hi
    exact ⟨fun name => (oneForm_iff (h.actions name)).mp (hi.features name),
      normalize_deps_eq_iff.mp hi.deps⟩
  · rintro ⟨hone, horder⟩
    exact ⟨⟨h.fields.name, h.fields.vers, h.fields.cksum, h.fields.yanked, h.fields.links,
      h.fields.v⟩, fun name => (oneForm_iff (h.actions name)).mpr (hone name), fun _ => rfl,
      normalize_deps_eq_iff.mpr horder⟩

theorem equivalent_fooWith {f f2 g g2 : HashMap String (List String)}
    (h : ∀ name, (fooWith f f2).actions name = (fooWith g g2).actions name) :
    Equivalent (fooWith f f2) (fooWith g g2) :=
  ⟨⟨rfl, rfl, rfl, rfl, rfl, rfl⟩, h, [], List.Forall₂.nil, List.Perm.nil⟩

theorem lookup_collect_ne {k : String} (values : List String) (h : name ≠ k) :
    (HashMap.collect [(k, values)]).lookup name = none := AList.lookup_insert_ne h

/-- A dependency on a package by another name. -/
def renamed (name : String) (optional : Bool) (features : List String) : Dependency where
  name := name
  req := VersionReq.caret 1 0 0
  features := features
  optional := optional
  defaultFeatures := true
  target := none
  kind := .normal
  registry := none
  package := some "log"

/-- `foo` with a feature of `features2` alone and three dependencies, two of one sort key. -/
def fooBefore : CrateVersion :=
  { fooWith ∅ (HashMap.collect [("full", ["b", "a"])]) with
    deps := [renamed "y" true ["std", "kv"], renamed "x" false [], renamed "y" false []] }

/-- The same, with the feature in `features`, already sorted, and the dependencies in another
order. -/
def fooAfter : CrateVersion :=
  { fooWith (HashMap.collect [("full", ["a", "b"])]) ∅ with
    deps := [renamed "x" false [], renamed "y" true ["kv", "std"], renamed "y" false []] }

theorem sameOrder_foo : SameOrder fooBefore.deps fooAfter.deps := by
  have hkey (name : String) (optional : Bool) (features : List String) :
      (renamed name optional features).sortKey = (renamed name false []).sortKey := rfl
  have hne : (renamed "x" false []).sortKey ≠ (renamed "y" false []).sortKey := by decide
  have hy : (renamed "y" true ["std", "kv"]).Reordered (renamed "y" true ["kv", "std"]) :=
    ⟨["kv", "std"], List.Perm.swap _ _ _, rfl⟩
  intro key
  simp only [fooBefore, fooAfter, List.filter_cons, List.filter_nil, hkey "y"]
  by_cases hx : (renamed "x" false []).sortKey = key
  · simp [← hx, hne.symm, Dependency.reordered_refl]
  · by_cases hyk : (renamed "y" false []).sortKey = key
    · simp [← hyk, hne, Dependency.reordered_refl, hy]
    · simp [hx, hyk]

theorem equivalent_foo : Equivalent fooBefore fooAfter := by
  refine ⟨⟨rfl, rfl, rfl, rfl, rfl, rfl⟩, fun name => ?_,
    [renamed "y" true ["kv", "std"], renamed "x" false [], renamed "y" false []], ?_,
    List.Perm.swap _ _ _⟩
  · by_cases h : name = "full"
    · subst h
      decide
    · simp only [actions, mergedFeatures, fooBefore, fooAfter, fooWith, lookup_collect_ne _ h,
        AList.lookup_empty]
  · exact .cons ⟨["kv", "std"], List.Perm.swap _ _ _, rfl⟩
      (.cons (Dependency.reordered_refl _) (.cons (Dependency.reordered_refl _) .nil))

/-- They have one normal form. -/
theorem identical_moved : Identical fooBefore.normalize fooAfter.normalize := by
  refine (identical_normalize_iff equivalent_foo).mpr ⟨fun name => ?_, sameOrder_foo⟩
  by_cases h : name = "full"
  · subst h
    exact ⟨by decide, fun hn => absurd (by decide) hn, fun _ hm => absurd hm (by decide),
      fun _ _ => by decide⟩
  · have hnone : fooBefore.features2.lookup name = none := lookup_collect_ne _ h
    refine (oneForm_of_neither hnone (AList.lookup_empty _)).mp ?_
    rw [lookup_normalize_of_none hnone, lookup_normalize_of_none (AList.lookup_empty _)]
    exact (lookup_collect_ne _ h).symm

/-- The order of the actions in `features` stays. -/
theorem not_identical_swapped :
    Equivalent (fooWith (HashMap.collect [("full", ["a", "b"])]) ∅)
      (fooWith (HashMap.collect [("full", ["b", "a"])]) ∅) ∧
    ¬ Identical (fooWith (HashMap.collect [("full", ["a", "b"])]) ∅).normalize
      (fooWith (HashMap.collect [("full", ["b", "a"])]) ∅).normalize := by
  refine ⟨equivalent_fooWith fun name => ?_, fun h => ?_⟩
  · by_cases h : name = "full"
    · subst h
      decide
    · simp only [actions, mergedFeatures, fooWith, lookup_collect_ne _ h, AList.lookup_empty]
  · exact absurd (h.features "full") (by decide)

end CrateVersion

end Freighter
