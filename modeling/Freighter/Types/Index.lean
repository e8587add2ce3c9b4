import Freighter.Lib.HashMap
import Freighter.Types.Semver
import Mathlib.Data.Vector.Basic

/-!
# The types of the index API

The publish request, the index entry with its features as Cargo merges them and the conversion
between their dependencies, with the errors of the index and of the storage.
-/

namespace Freighter

/-- Raw bytes. -/
abbrev Bytes : Type := List UInt8

/-- A SHA-256 digest, `[u8; 32]`. -/
abbrev Checksum : Type := List.Vector UInt8 32

inductive StorageError where
  | notFound
  | serviceError
deriving DecidableEq

inductive IndexError where
  | conflict (msg : String)
  | crateNameNotAllowed
  | notFound
  | serviceError
deriving DecidableEq

/-- `From<StorageError> for IndexError`. -/
def StorageError.toIndexError : StorageError → IndexError
  | .notFound => .notFound
  | .serviceError => .serviceError

inductive DependencyKind where
  | normal
  | dev
  | build
deriving DecidableEq

/-- A dependency of a publish request: `name` is the original name of the package. -/
structure PublishDependency where
  name : String
  versionReq : VersionReq
  features : List String
  optional : Bool
  defaultFeatures : Bool
  target : Option String
  kind : DependencyKind
  registry : Option String
  explicitNameInToml : Option String
deriving DecidableEq

structure Publish where
  name : String
  vers : Version
  deps : List PublishDependency
  features : HashMap String (List String)
  authors : List String
  description : Option String
  documentation : Option String
  homepage : Option String
  readme : Option String
  readmeFile : Option String
  keywords : List String
  categories : List String
  license : Option String
  licenseFile : Option String
  repository : Option String
  badges : Option (HashMap String (HashMap String String))
  links : Option String

/-- `Publish::empty`. -/
def Publish.empty : Publish where
  name := ""
  vers := Version.new 0 0 0
  deps := []
  features := ∅
  authors := []
  description := none
  documentation := none
  homepage := none
  readme := none
  readmeFile := none
  keywords := []
  categories := []
  license := none
  licenseFile := none
  repository := none
  badges := none
  links := none

/-- A dependency of an index entry: `name` is the name in the manifest, `package` the original
name of a renamed one. -/
structure Dependency where
  name : String
  req : VersionReq
  features : List String
  optional : Bool
  defaultFeatures : Bool
  target : Option String
  kind : DependencyKind
  registry : Option String
  package : Option String
deriving DecidableEq

/-- An entry of the index. -/
structure CrateVersion where
  name : String
  vers : Version
  deps : List Dependency
  cksum : Checksum
  features : HashMap String (List String)
  yanked : Bool
  links : Option String
  v : UInt32
  features2 : HashMap String (List String)

/-- The values of a feature, those of `features2` behind those of `features`. -/
def CrateVersion.mergedFeatures (c : CrateVersion) (name : String) : Option (List String) :=
  match c.features.lookup name, c.features2.lookup name with
  | some values, some more => some (values ++ more)
  | some values, none => some values
  | none, more => more

/-- `CrateVersionExists`. -/
structure CrateVersionExists where
  yanked : Bool
  tarballChecksum : Checksum
deriving DecidableEq

/-- `CompletedPublication`, whose warnings are never filled in. -/
inductive CompletedPublication where
  | noWarnings
deriving DecidableEq

/-- `str::to_ascii_lowercase`. -/
def toAsciiLowercase (s : String) : String := String.ofList (s.toList.map Char.toLower)

/-- The name of the crate and the renaming, as the index has them. -/
def PublishDependency.aliasAndPackage (d : PublishDependency) : String × Option String :=
  match d.explicitNameInToml with
  | some renamed => (renamed, some d.name)
  | none => (d.name, none)

/-- The index form of a dependency, as `FsIndexProvider::publish` builds it. -/
def PublishDependency.toDependency (d : PublishDependency) : Dependency where
  name := d.aliasAndPackage.1
  req := d.versionReq
  features := d.features
  optional := d.optional
  defaultFeatures := d.defaultFeatures
  target := d.target
  kind := d.kind
  registry := d.registry
  package := d.aliasAndPackage.2

/-- The name of the package and the name in the manifest of a renamed one, as a publish request has
them. -/
def Dependency.packageAndAlias (x : Dependency) : String × Option String :=
  match x.package with
  | some package => (package, some x.name)
  | none => (x.name, none)

/-- The publish form of a dependency, as `From<CrateVersion> for Publish` builds it. -/
def Dependency.toPublishDependency (x : Dependency) : PublishDependency where
  name := x.packageAndAlias.1
  versionReq := x.req
  features := x.features
  optional := x.optional
  defaultFeatures := x.defaultFeatures
  target := x.target
  kind := x.kind
  registry := x.registry
  explicitNameInToml := x.packageAndAlias.2

/-- `From<CrateVersion> for Publish`. -/
def CrateVersion.toPublish (value : CrateVersion) : Publish :=
  { Publish.empty with
    name := value.name
    vers := value.vers
    deps := value.deps.map Dependency.toPublishDependency
    features := value.features }

/-- **The two forms of a dependency are inverse**, renamed or not. -/
theorem Dependency.toDependency_toPublishDependency (x : Dependency) :
    x.toPublishDependency.toDependency = x := by
  obtain ⟨name, req, features, opt, dflt, target, kind, registry, package⟩ := x
  cases package <;> rfl

theorem PublishDependency.toPublishDependency_toDependency (d : PublishDependency) :
    d.toDependency.toPublishDependency = d := by
  obtain ⟨name, req, features, opt, dflt, target, kind, registry, renamed⟩ := d
  cases renamed <;> rfl

/-! ## A version to publish -/

/-- SHA-256 of the bytes of "abc". -/
def abcHash (_ : Bytes) : Checksum :=
  ⟨[186, 120, 22, 191, 143, 1, 207, 234, 65, 65, 64, 222, 93, 174, 34, 35,
    176, 3, 97, 163, 150, 23, 122, 156, 180, 16, 255, 97, 242, 0, 21, 173], rfl⟩

/-- Version 0.0.0 of `foo`. -/
def foo : Publish := { Publish.empty with name := "foo" }

end Freighter
