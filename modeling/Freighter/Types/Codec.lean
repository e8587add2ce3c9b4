import Freighter.Lib.Json
import Freighter.Types.Index

/-!
# The index types as JSON

The `Serialize` and `Deserialize` impls that serde derives for the publish request and the index
entry. A struct is written as an object, and read from an object or from an array: in an object
unknown fields are skipped and a field given twice is an error, an array has the fields in order.

* `CrateVersion.toJson`, `CrateVersion.fromJson`, `Publish.toJson`, `Publish.fromJson`;
* **`CrateVersion.fromJson_toJson`**, **`Publish.fromJson_toJson`**; `Publish.fromJson_arr`: the
  array of its values is the same request;
* **`CrateVersion.fromJson_publish`**: a publish request is never read as an index entry.
-/

namespace Freighter

/-- The JSON text library and the version parsers that the program relies on. -/
structure Libs where
  json : SerdeJson
  semver : Semver

/-- The libraries of the compact JSON text and the canonical versions. -/
noncomputable def Libs.canonical : Libs := ⟨Json.compact, Semver.canonical⟩

namespace Serde

/-! ## Values -/

def encOption {α : Type} (enc : α → Json) : Option α → Json
  | none => .null
  | some a => enc a

def encStrings (l : List String) : Json := .arr (l.map .str)

def encMap {α : Type} (enc : α → Json) (m : HashMap String α) : Json :=
  .obj (m.iter.map fun e => (e.1, enc e.2))

def decString : Json → Option String
  | .str s => some s
  | _ => none

def decBool : Json → Option Bool
  | .bool b => some b
  | _ => none

def decU32 : Json → Option UInt32
  | .num n => if n < 2 ^ 32 then some (UInt32.ofNat n) else none
  | _ => none

def decList {α : Type} (dec : Json → Option α) : Json → Option (List α)
  | .arr xs => xs.mapM dec
  | _ => none

def decMap {α : Type} (dec : Json → Option α) : Json → Option (HashMap String α)
  | .obj kvs => do
    let es ← kvs.mapM fun kv => (dec kv.2).map fun a => (kv.1, a)
    pure (HashMap.collect es)
  | _ => none

/-- `Option<T>`: `null` is `None`. -/
def decOption {α : Type} (dec : Json → Option α) : Json → Option (Option α)
  | .null => some none
  | j => (dec j).map some

/-! ## Fields -/

/-- The fields of a struct, by name. In an array they stand in the order of `names`; it may be cut
short after the first `least`, which are all but those at the end with a default. -/
def fields (names : List String) (least : ℕ) : Json → Option (List (String × Json))
  | .obj kvs => some kvs
  | .arr xs => if least ≤ xs.length ∧ xs.length ≤ names.length then some (names.zip xs) else none
  | _ => none

/-- The value of a field, if it is there; `none` when it is there twice. -/
def field (name : String) (kvs : List (String × Json)) : Option (Option Json) :=
  match kvs.filter fun kv => kv.1 = name with
  | [] => some none
  | [kv] => some (some kv.2)
  | _ => none

/-- A field without default. -/
def required {α : Type} (dec : Json → Option α) (name : String) (kvs : List (String × Json)) :
    Option α :=
  match field name kvs with
  | some (some j) => dec j
  | _ => none

/-- A field with a default. -/
def defaulted {α : Type} (d : α) (dec : Json → Option α) (name : String)
    (kvs : List (String × Json)) : Option α :=
  match field name kvs with
  | some (some j) => dec j
  | some none => some d
  | none => none

/-- An optional field: missing and `null` are both `None`. -/
def optional {α : Type} (dec : Json → Option α) : String → List (String × Json) →
    Option (Option α) :=
  defaulted none (decOption dec)

end Serde

open Serde

variable (L : Libs)

/-! ## Versions and kinds -/

def decVersion (j : Json) : Option Version := (decString j).bind L.semver.parseVersion

def decReq (j : Json) : Option VersionReq := (decString j).bind L.semver.parseReq

/-- `rename_all = "lowercase"`. -/
def DependencyKind.text : DependencyKind → String
  | .normal => "normal"
  | .dev => "dev"
  | .build => "build"

def DependencyKind.ofText : String → Option DependencyKind
  | "normal" => some .normal
  | "dev" => some .dev
  | "build" => some .build
  | _ => none

/-- A variant without data is read from its name, or from an object that gives it `null`. -/
def DependencyKind.fromJson : Json → Option DependencyKind
  | .str name => ofText name
  | .obj [(name, .null)] => ofText name
  | _ => none

example : DependencyKind.fromJson (.obj [("dev", .null)]) = some .dev := rfl

/-- `serde(with = "hex")`. -/
def encChecksum (c : Checksum) : Json := .str (String.ofList (Hex.encode c.toList))

def decChecksum (j : Json) : Option Checksum := (decString j).bind fun s => Hex.decodeN 32 s.toList

/-! ## The publish request -/

def PublishDependency.toJson (d : PublishDependency) : Json :=
  .obj [("name", .str d.name), ("version_req", .str d.versionReq.display),
    ("features", encStrings d.features), ("optional", .bool d.optional),
    ("default_features", .bool d.defaultFeatures), ("target", encOption .str d.target),
    ("kind", .str d.kind.text), ("registry", encOption .str d.registry),
    ("explicit_name_in_toml", encOption .str d.explicitNameInToml)]

def PublishDependency.fieldNames : List String :=
  ["name", "version_req", "features", "optional", "default_features", "target", "kind", "registry",
    "explicit_name_in_toml"]

def PublishDependency.ofFields (kvs : List (String × Json)) : Option PublishDependency := do
  let name ← required decString "name" kvs
  let versionReq ← required (decReq L) "version_req" kvs
  let features ← required (decList decString) "features" kvs
  let optional ← required decBool "optional" kvs
  let defaultFeatures ← required decBool "default_features" kvs
  let target ← Serde.optional decString "target" kvs
  let kind ← required DependencyKind.fromJson "kind" kvs
  let registry ← Serde.optional decString "registry" kvs
  let explicitNameInToml ← Serde.optional decString "explicit_name_in_toml" kvs
  pure { name, versionReq, features, optional, defaultFeatures, target, kind, registry,
         explicitNameInToml }

def PublishDependency.fromJson (j : Json) : Option PublishDependency :=
  (fields fieldNames 9 j).bind (ofFields L)

theorem PublishDependency.fromJson_obj (kvs : List (String × Json)) :
    PublishDependency.fromJson L (.obj kvs) = ofFields L kvs := rfl

def Publish.toJson (p : Publish) : Json :=
  .obj [("name", .str p.name), ("vers", .str p.vers.display),
    ("deps", .arr (p.deps.map PublishDependency.toJson)),
    ("features", encMap encStrings p.features), ("authors", encStrings p.authors),
    ("description", encOption .str p.description),
    ("documentation", encOption .str p.documentation), ("homepage", encOption .str p.homepage),
    ("readme", encOption .str p.readme), ("readme_file", encOption .str p.readmeFile),
    ("keywords", encStrings p.keywords), ("categories", encStrings p.categories),
    ("license", encOption .str p.license), ("license_file", encOption .str p.licenseFile),
    ("repository", encOption .str p.repository),
    ("badges", encOption (encMap (encMap .str)) p.badges), ("links", encOption .str p.links)]

def Publish.fieldNames : List String :=
  ["name", "vers", "deps", "features", "authors", "description", "documentation", "homepage",
    "readme", "readme_file", "keywords", "categories", "license", "license_file", "repository",
    "badges", "links"]

def Publish.ofFields (kvs : List (String × Json)) : Option Publish := do
  let name ← required decString "name" kvs
  let vers ← required (decVersion L) "vers" kvs
  let deps ← required (decList (PublishDependency.fromJson L)) "deps" kvs
  let features ← required (decMap (decList decString)) "features" kvs
  let authors ← defaulted [] (decList decString) "authors" kvs
  let description ← optional decString "description" kvs
  let documentation ← optional decString "documentation" kvs
  let homepage ← optional decString "homepage" kvs
  let readme ← optional decString "readme" kvs
  let readmeFile ← optional decString "readme_file" kvs
  let keywords ← defaulted [] (decList decString) "keywords" kvs
  let categories ← defaulted [] (decList decString) "categories" kvs
  let license ← optional decString "license" kvs
  let licenseFile ← optional decString "license_file" kvs
  let repository ← optional decString "repository" kvs
  let badges ← optional (decMap (decMap decString)) "badges" kvs
  let links ← optional decString "links" kvs
  pure { name, vers, deps, features, authors, description, documentation, homepage, readme,
         readmeFile, keywords, categories, license, licenseFile, repository, badges, links }

def Publish.fromJson (j : Json) : Option Publish :=
  (fields fieldNames 17 j).bind (ofFields L)

theorem Publish.fromJson_obj (kvs : List (String × Json)) :
    Publish.fromJson L (.obj kvs) = ofFields L kvs := rfl

/-! ## The index entry -/

/-- A field that is skipped when it is `None`. -/
def skipNone (name : String) : Option String → List (String × Json)
  | none => []
  | some s => [(name, .str s)]

def Dependency.toJson (d : Dependency) : Json :=
  .obj ([("name", .str d.name), ("req", .str d.req.display),
    ("features", encStrings d.features), ("optional", .bool d.optional),
    ("default_features", .bool d.defaultFeatures)] ++ skipNone "target" d.target ++
    [("kind", .str d.kind.text)] ++ skipNone "registry" d.registry ++
    skipNone "package" d.package)

def Dependency.fieldNames : List String :=
  ["name", "req", "features", "optional", "default_features", "target", "kind", "registry",
    "package"]

def Dependency.ofFields (kvs : List (String × Json)) : Option Dependency := do
  let name ← required decString "name" kvs
  let req ← required (decReq L) "req" kvs
  let features ← defaulted [] (decList decString) "features" kvs
  let optional ← defaulted false decBool "optional" kvs
  let defaultFeatures ← required decBool "default_features" kvs
  let target ← Serde.optional decString "target" kvs
  let kind ← required DependencyKind.fromJson "kind" kvs
  let registry ← Serde.optional decString "registry" kvs
  let package ← Serde.optional decString "package" kvs
  pure { name, req, features, optional, defaultFeatures, target, kind, registry, package }

def Dependency.fromJson (j : Json) : Option Dependency :=
  (fields fieldNames 9 j).bind (ofFields L)

theorem Dependency.fromJson_obj (kvs : List (String × Json)) :
    Dependency.fromJson L (.obj kvs) = ofFields L kvs := rfl

def CrateVersion.toJson (c : CrateVersion) : Json :=
  .obj ([("name", .str c.name), ("vers", .str c.vers.display),
    ("deps", .arr (c.deps.map Dependency.toJson)), ("cksum", encChecksum c.cksum),
    ("features", encMap encStrings c.features)] ++
    (if c.yanked then [("yanked", .bool true)] else []) ++ skipNone "links" c.links ++
    [("v", .num c.v.toNat)] ++
    (if c.features2.entries = [] then [] else [("features2", encMap encStrings c.features2)]))

def CrateVersion.fieldNames : List String :=
  ["name", "vers", "deps", "cksum", "features", "yanked", "links", "v", "features2"]

def CrateVersion.ofFields (kvs : List (String × Json)) : Option CrateVersion := do
  let name ← required decString "name" kvs
  let vers ← required (decVersion L) "vers" kvs
  let deps ← required (decList (Dependency.fromJson L)) "deps" kvs
  let cksum ← required decChecksum "cksum" kvs
  let features ← required (decMap (decList decString)) "features" kvs
  let yanked ← defaulted false decBool "yanked" kvs
  let links ← optional decString "links" kvs
  let v ← defaulted 1 decU32 "v" kvs
  let features2 ← defaulted ∅ (decMap (decList decString)) "features2" kvs
  pure { name, vers, deps, cksum, features, yanked, links, v, features2 }

def CrateVersion.fromJson (j : Json) : Option CrateVersion :=
  (fields fieldNames 7 j).bind (ofFields L)

theorem CrateVersion.fromJson_obj (kvs : List (String × Json)) :
    CrateVersion.fromJson L (.obj kvs) = ofFields L kvs := rfl

/-! ## Nesting -/

section Fits

variable {α : Type} (depth : ℕ)

theorem fits_encOption {enc : α → Json} (h : ∀ a, (enc a).fits depth = true) (o : Option α) :
    (encOption enc o).fits depth = true := by
  cases o with
  | none => simp [encOption, Json.fits]
  | some a => exact h a

@[simp] theorem fits_encOption_str (o : Option String) : (encOption .str o).fits depth = true :=
  fits_encOption depth (fun _ => by simp [Json.fits]) o

@[simp] theorem fits_encStrings (l : List String) : (encStrings l).fits (depth + 1) = true := by
  simp [encStrings, Json.fits]

theorem fits_encMap {enc : α → Json} (h : ∀ a, (enc a).fits depth = true)
    (m : HashMap String α) : (encMap enc m).fits (depth + 1) = true := by
  simp [encMap, Json.fits, h]

@[simp] theorem fits_features (m : HashMap String (List String)) :
    (encMap encStrings m).fits (depth + 2) = true :=
  fits_encMap _ (fits_encStrings _) m

theorem all_fits_skipNone (name : String) (o : Option String) :
    ((skipNone name o).all fun kv => kv.2.fits depth) = true := by
  cases o <;> simp [skipNone, Json.fits]

theorem PublishDependency.fits_toJson (d : PublishDependency) :
    d.toJson.fits (depth + 2) = true := by
  simp [toJson, Json.fits]

theorem Publish.fits_toJson (p : Publish) : p.toJson.fits (depth + 4) = true := by
  have hbadges : (encOption (encMap (encMap .str)) p.badges).fits (depth + 3) = true :=
    fits_encOption _ (fits_encMap _ (fits_encMap _ fun _ => by simp [Json.fits])) p.badges
  simp [toJson, Json.fits, PublishDependency.fits_toJson, hbadges]

theorem Dependency.fits_toJson (d : Dependency) : d.toJson.fits (depth + 2) = true := by
  simp [toJson, Json.fits, all_fits_skipNone]

theorem CrateVersion.fits_toJson (c : CrateVersion) : c.toJson.fits (depth + 4) = true := by
  have hv : c.v.toNat < 18446744073709551616 := c.v.toNat_lt.trans (by decide)
  cases c.yanked <;> by_cases h2 : c.features2.entries = [] <;>
    simp [toJson, Json.fits, encChecksum, all_fits_skipNone, Dependency.fits_toJson, h2, hv]

end Fits

/-! ## Round trips -/

namespace Serde

variable {α : Type}

@[simp] theorem fields_obj (names : List String) (least : ℕ) (kvs : List (String × Json)) :
    fields names least (.obj kvs) = some kvs := rfl

/-- **An array of all the fields is read as the object.** -/
theorem fields_arr {names : List String} {least : ℕ} {kvs : List (String × Json)}
    (hnames : kvs.map Prod.fst = names) (hleast : least ≤ names.length) :
    fields names least (.arr (kvs.map Prod.snd)) = some kvs := by
  have hlen : (kvs.map Prod.snd).length = names.length := by simp [← hnames]
  rw [fields, if_pos ⟨hlen ▸ hleast, hlen.le⟩, ← hnames, List.zip_map', List.map_id'']
  exact fun _ => rfl

theorem decString_str (s : String) : decString (.str s) = some s := rfl

theorem mapM_map {β γ : Type} {f : β → Option γ} {g : γ → β} (h : ∀ a, f (g a) = some a)
    (l : List γ) : (l.map g).mapM f = some l := by
  induction l with
  | nil => rfl
  | cons a l ih => simp [h a, ih]

theorem decList_map {dec : Json → Option α} {enc : α → Json} (h : ∀ a, dec (enc a) = some a)
    (l : List α) : decList dec (.arr (l.map enc)) = some l := mapM_map h l

@[simp] theorem decStrings (l : List String) : decList decString (encStrings l) = some l :=
  decList_map decString_str l

theorem decMap_encMap {dec : Json → Option α} {enc : α → Json} (h : ∀ a, dec (enc a) = some a)
    (m : HashMap String α) : decMap dec (encMap enc m) = some m := by
  have := mapM_map (f := fun kv : String × Json => (dec kv.2).map fun a => (kv.1, a))
    (g := fun e => (e.1, enc e.2)) (fun e => by simp [h e.2]) m.iter
  simp [decMap, encMap, this]

theorem decOption_encOption {dec : Json → Option α} {enc : α → Json}
    (h : ∀ a, dec (enc a) = some a) (hn : ∀ a, enc a ≠ .null) (o : Option α) :
    decOption dec (encOption enc o) = some o := by
  cases o with
  | none => rfl
  | some a =>
    have ha : decOption dec (enc a) = (dec (enc a)).map some := by
      cases e : enc a with
      | null => exact absurd e (hn a)
      | _ => rfl
    simp only [encOption, ha, h a, Option.map_some]

@[simp] theorem decOption_str (o : Option String) :
    decOption decString (encOption .str o) = some o :=
  decOption_encOption decString_str (fun _ h => by cases h) o

end Serde

@[simp] theorem DependencyKind.fromJson_text (k : DependencyKind) :
    DependencyKind.fromJson (.str k.text) = some k := by cases k <;> rfl

@[simp] theorem decVersion_display (v : Version) : decVersion L (.str v.display) = some v :=
  L.semver.parseVersion_display v

@[simp] theorem decReq_display (r : VersionReq) : decReq L (.str r.display) = some r :=
  L.semver.parseReq_display r

@[simp] theorem decChecksum_enc (c : Checksum) : decChecksum (encChecksum c) = some c := by
  simp [decChecksum, encChecksum, decString]

theorem PublishDependency.fromJson_toJson (d : PublishDependency) :
    PublishDependency.fromJson L d.toJson = some d := by
  rw [toJson, fromJson_obj]
  simp [PublishDependency.ofFields, required, Serde.optional, defaulted, field, decString,
    decBool]

/-- **A publish request is read back.** -/
theorem Publish.fromJson_toJson (p : Publish) : Publish.fromJson L p.toJson = some p := by
  have hdeps := decList_map (PublishDependency.fromJson_toJson L) p.deps
  have hfeat := decMap_encMap decStrings p.features
  have hbadges := decOption_encOption (decMap_encMap (decMap_encMap decString_str))
    (fun _ h => by cases h) p.badges
  rw [toJson, fromJson_obj]
  simp [Publish.ofFields, required, Serde.optional, defaulted, field, decString, hdeps,
    hfeat, hbadges]

/-- **The array of the values of a request is read as the request.** -/
theorem Publish.fromJson_arr {p : Publish} {kvs : List (String × Json)} (h : p.toJson = .obj kvs) :
    Publish.fromJson L (.arr (kvs.map Prod.snd)) = some p := by
  have hobj := Publish.fromJson_toJson L p
  have hnames : kvs.map Prod.fst = fieldNames := by
    cases h
    rfl
  rw [h, fromJson_obj] at hobj
  rw [Publish.fromJson, fields_arr hnames (by decide), Option.bind_some, hobj]

theorem Dependency.fromJson_toJson (d : Dependency) : Dependency.fromJson L d.toJson = some d := by
  obtain ⟨name, req, features, opt, dflt, target, kind, registry, package⟩ := d
  rw [toJson, fromJson_obj]
  cases target <;> cases registry <;> cases package <;>
    simp [Dependency.ofFields, required, Serde.optional, defaulted, field, decString,
      decBool, skipNone, decOption]

/-- **An index entry is read back**, with the fields that were skipped. -/
theorem CrateVersion.fromJson_toJson (c : CrateVersion) :
    CrateVersion.fromJson L c.toJson = some c := by
  obtain ⟨name, vers, deps, cksum, features, yanked, links, v, features2⟩ := c
  have hdeps := decList_map (Dependency.fromJson_toJson L) deps
  have hfeat := fun m => decMap_encMap decStrings m
  have hv : decU32 (.num v.toNat) = some v := by
    simp [decU32, show v.toNat < 4294967296 from v.toNat_lt]
  have hempty : features2.entries = [] → features2 = ∅ := fun h => AList.ext h
  rw [toJson, fromJson_obj]
  cases yanked <;> cases links <;> by_cases h2 : features2.entries = [] <;>
    simp [CrateVersion.ofFields, required, Serde.optional, defaulted, field, decString,
      decBool, skipNone, decOption, hdeps, hfeat, hv, h2, hempty]

/-- **A publish request is not taken for an index entry**: it has no `cksum`. -/
theorem CrateVersion.fromJson_publish (p : Publish) : CrateVersion.fromJson L p.toJson = none := by
  rw [Publish.toJson, fromJson_obj]
  simp [CrateVersion.ofFields, required, field]

end Freighter
