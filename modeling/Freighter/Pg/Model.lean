import Freighter.Lib.Hex
import Freighter.Lib.Table
import Freighter.Lib.Transaction
import Freighter.Types.Codec

/-!
# The Postgres index provider

The database of `init-index-db.sql`, each statement of `sql/` as a function of it, and the calls.

* `Db`: the tables, with their unique keys; the foreign keys are an invariant and not a check;
* `publish` is one transaction: `insertRelease`, then `end_step`, then the commit;
* `getSparseEntry`, `confirmExistence`, `yankInner`; `none` is a panic.

A statement fails when the connection breaks or Postgres refuses what it is given (`Io`). Rows come
in the order they were inserted.
-/

namespace Freighter

namespace PgIndex

/-! ## The tables -/

/-- A row of `crates`, but for its timestamps. -/
structure CrateRow where
  name : String
  registry : String
  description : Option String
  documentation : Option String
  homepage : Option String
  repository : Option String
deriving DecidableEq

structure VersionRow where
  crate : ℕ
  version : String
  cksum : String
  yanked : Bool
  links : Option String
deriving DecidableEq

structure FeatureRow where
  crateVersion : ℕ
  name : String
  values : List String
deriving DecidableEq

structure DependencyRow where
  dependent : ℕ
  dependency : ℕ
  req : String
  features : List String
  optional : Bool
  defaultFeatures : Bool
  target : Option String
  kind : DependencyKind
  package : Option String
deriving DecidableEq

/-- The two kinds of labels of a crate. -/
inductive Label where
  | keyword
  | category
deriving DecidableEq

/-- `keywords` and `crate_keywords`, or `categories` and `crate_categories`. -/
structure Labels where
  names : Table fun r : ℕ × String => r.2
  ofCrates : Table fun r : ℕ × (ℕ × ℕ) => r.1

structure Db where
  crates : Table fun r : ℕ × CrateRow => (r.2.name, r.2.registry)
  labels : Label → Labels
  crateVersions : Table fun r : ℕ × VersionRow => (r.2.crate, r.2.version)
  features : Table fun r : ℕ × FeatureRow => (r.2.crateVersion, r.2.name)
  dependencies : Table fun r : ℕ × DependencyRow => r.1

/-- `init-index-db.sql`. -/
def Db.empty : Db := ⟨.empty, fun _ => ⟨.empty, .empty⟩, .empty, .empty, .empty⟩

/-- The database after a transaction that left `new` is undone. -/
def Db.rollback (db new : Db) : Db where
  crates := db.crates.rollback new.crates
  labels l := ⟨(db.labels l).names.rollback (new.labels l).names,
    (db.labels l).ofCrates.rollback (new.labels l).ofCrates⟩
  crateVersions := db.crateVersions.rollback new.crateVersions
  features := db.features.rollback new.features
  dependencies := db.dependencies.rollback new.dependencies

/-- `hex::encode`. -/
def hexEncode (c : Checksum) : String := String.ofList (Hex.encode c.toList)

/-- `hex::FromHex::from_hex`. -/
def fromHex (s : String) : Option Checksum := Hex.decodeN 32 s.toList

@[simp] theorem fromHex_hexEncode (c : Checksum) : fromHex (hexEncode c) = some c := by
  unfold fromHex hexEncode
  rw [String.toList_ofList, Hex.decodeN_encode]

/-! ## Statements -/

/-- What a call asks of the database. -/
inductive Stmt where
  | connect
  | startTransaction
  | prepare
  | commit
  | getOrInsertCrate (name : String)
  | updateCrate (description documentation homepage repository : Option String)
  | getCrateLabels (l : Label)
  | insertLabel (l : Label) (name : String)
  | insertCrateLabel (l : Label) (name : String)
  | removeCrateLabel (l : Label) (name : String)
  | insertVersion (version : String) (links : Option String)
  | insertDependency (d : PublishDependency)
  | insertFeature (name : String) (values : List String)
  | getCrate (name : String)
  | getVersions
  | getFeatures (version : ℕ)
  | getDependencies (version : ℕ)
  | confirmExistence (name version : String)
  | setYank (name version : String)

/-- What fails during a call. -/
structure Io where
  fails : Stmt → Bool := fun _ => false

/-- A step of the publish transaction. -/
abbrev Step (α : Type) : Type := Tx Db IndexError α

/-- A statement that only the database can refuse. -/
def statement {α : Type} (io : Io) (stmt : Stmt) (f : Db → α × Db) : Step α := fun db =>
  if io.fails stmt then (.error .serviceError, db) else (.ok (f db).1, (f db).2)

/-- The row of a crate that nothing is known of but its name. -/
def CrateRow.bare (name registry : String) : CrateRow := ⟨name, registry, none, none, none, none⟩

/-- `get-or-insert-crate.sql`. -/
def getOrInsertCrate (name : String) (db : Db) : (ℕ × CrateRow) × Db :=
  let out := db.crates.getOrInsert (CrateRow.bare name "")
  (out.1, { db with crates := out.2 })

/-- What `update-crate.sql` sets in a row. -/
def CrateRow.refresh (id : ℕ) (p : Publish) (r : ℕ × CrateRow) : CrateRow :=
  if r.1 = id then
    ⟨r.2.name, r.2.registry, p.description, p.documentation, p.homepage, p.repository⟩
  else r.2

theorem CrateRow.refresh_key (id : ℕ) (p : Publish) (r : ℕ × CrateRow) :
    ((refresh id p r).name, (refresh id p r).registry) = (r.2.name, r.2.registry) := by
  unfold refresh
  split_ifs <;> rfl

/-- `update-crate.sql`. -/
def updateCrate (id : ℕ) (p : Publish) (db : Db) : Unit × Db :=
  ((), { db with
    crates := db.crates.update (CrateRow.refresh id p) (CrateRow.refresh_key id p) })

/-- `get-crate-keywords.sql`, `get-crate-categories.sql`. -/
def getCrateLabels (l : Label) (crate : ℕ) (db : Db) : List String × Db :=
  let t := db.labels l
  ((t.ofCrates.rows.filter (·.2.1 = crate)).flatMap fun r =>
    (t.names.rows.filter (·.1 = r.2.2)).map Prod.snd, db)

def Db.setLabels (db : Db) (l : Label) (t : Labels) : Db :=
  { db with labels := Function.update db.labels l t }

/-- `insert-keyword.sql`, `insert-category.sql`. -/
def insertLabel (l : Label) (name : String) (db : Db) : ℕ × Db :=
  let out := (db.labels l).names.getOrInsert name
  (out.1.1, db.setLabels l { db.labels l with names := out.2 })

/-- `insert-crate-keyword.sql`, `insert-crate-category.sql`; these tables have no unique key but
the id. -/
def insertCrateLabel (l : Label) (crate label : ℕ) (db : Db) : Unit × Db :=
  ((), db.setLabels l
    { db.labels l with ofCrates := ((db.labels l).ofCrates.insert (crate, label)).2 })

/-- `remove-crate-keyword.sql`, `remove-crate-category.sql`. -/
def removeCrateLabel (l : Label) (crate : ℕ) (name : String) (db : Db) : Unit × Db :=
  let t := db.labels l
  let named (id : ℕ) : Bool := t.names.rows.any fun n => n.1 = id && n.2 = name
  ((), db.setLabels l
    { t with ofCrates := t.ofCrates.delete fun r => r.2.1 = crate && named r.2.2 })

/-- `insert-version.sql`; whatever goes wrong is taken for a conflict. -/
def insertVersion (io : Io) (crate : ℕ) (p : Publish) (tarballChecksum : Checksum) : Step ℕ :=
  fun db =>
    let row : VersionRow := ⟨crate, p.vers.display, hexEncode tarballChecksum, false, p.links⟩
    let out := db.crateVersions.insert row
    if io.fails (.insertVersion row.version row.links) then
      (.error (.conflict "Failed to insert version"), db)
    else
      match out.1 with
      | none => (.error (.conflict "Failed to insert version"), { db with crateVersions := out.2 })
      | some id => (.ok id, { db with crateVersions := out.2 })

/-- The row of a dependency on the crate `dependency`. -/
def dependencyRow (versionId dependency : ℕ) (d : PublishDependency) : DependencyRow where
  dependent := versionId
  dependency := dependency
  req := d.versionReq.display
  features := d.features
  optional := d.optional
  defaultFeatures := d.defaultFeatures
  target := d.target
  kind := d.kind
  package := d.explicitNameInToml

/-- `insert-dependency.sql`; its crate is inserted unless it is there. -/
def insertDependency (versionId : ℕ) (d : PublishDependency) (db : Db) : Unit × Db :=
  let out := db.crates.getOrInsert (CrateRow.bare d.name (d.registry.getD ""))
  ((), { db with
    crates := out.2
    dependencies := (db.dependencies.insert (dependencyRow versionId out.1.1 d)).2 })

/-- `insert-features.sql`. -/
def insertFeature (io : Io) (versionId : ℕ) (feature : String × List String) : Step Unit :=
  fun db =>
    let out := db.features.insert ⟨versionId, feature.1, feature.2⟩
    if io.fails (.insertFeature feature.1 feature.2) then (.error .serviceError, db)
    else
      match out.1 with
      | none => (.error .serviceError, { db with features := out.2 })
      | some _ => (.ok (), { db with features := out.2 })

/-! ## `publish` -/

/-- What is kept once for all versions of the crate has changed. -/
def CrateRow.differs (c : CrateRow) (p : Publish) : Bool :=
  p.description != c.description || p.documentation != c.documentation ||
    p.homepage != c.homepage || p.repository != c.repository

def refreshCrate (io : Io) (crate : ℕ × CrateRow) (p : Publish) : Step Unit :=
  if crate.2.differs p then
    statement io (.updateCrate p.description p.documentation p.homepage p.repository)
      (updateCrate crate.1 p)
  else Tx.answer ()

def addLabel (io : Io) (l : Label) (crate : ℕ) (name : String) : Step Unit := do
  let id ← statement io (.insertLabel l name) (insertLabel l name)
  statement io (.insertCrateLabel l name) (insertCrateLabel l crate id)

def addLabels (io : Io) (l : Label) (crate : ℕ) (wanted had : List String) : Step Unit :=
  Tx.each (addLabel io l crate) (wanted.filter fun k => !had.contains k)

def pruneLabels (io : Io) (l : Label) (crate : ℕ) (wanted had : List String) : Step Unit :=
  Tx.each (fun k => statement io (.removeCrateLabel l k) (removeCrateLabel l crate k))
    (had.filter fun k => !wanted.contains k)

/-- The keywords and the categories. -/
def refreshLabels (io : Io) (crate : ℕ) (p : Publish) : Step Unit := do
  let keywords ← statement io (.getCrateLabels .keyword) (getCrateLabels .keyword crate)
  let categories ← statement io (.getCrateLabels .category) (getCrateLabels .category crate)
  addLabels io .keyword crate p.keywords keywords
  addLabels io .category crate p.categories categories
  pruneLabels io .keyword crate p.keywords keywords
  pruneLabels io .category crate p.categories categories

/-- The statements of the transaction. -/
def insertRelease (io : Io) (p : Publish) (tarballChecksum : Checksum) : Step Unit := do
  let crate ← statement io (.getOrInsertCrate p.name) (getOrInsertCrate p.name)
  refreshCrate io crate p
  refreshLabels io crate.1 p
  let versionId ← insertVersion io crate.1 p tarballChecksum
  Tx.each (fun d => statement io (.insertDependency d) (insertDependency versionId d)) p.deps
  Tx.each (insertFeature io versionId) p.features.iter

def publish {ω : Type} (io : Io) (db : Db) (p : Publish) (tarballChecksum : Checksum)
    (endStep : ω → Except IndexError Unit × ω) (w : ω) :
    Except IndexError CompletedPublication × Db × ω :=
  if io.fails .connect || io.fails .startTransaction || io.fails .prepare then
    (.error .serviceError, db, w)
  else
    match insertRelease io p tarballChecksum db with
    | (.error e, new) => (.error e, db.rollback new, w)
    | (.ok (), new) =>
      match endStep w with
      | (.error _, w) => (.error .serviceError, db.rollback new, w)
      | (.ok (), w) =>
        if io.fails .commit then (.error .serviceError, db.rollback new, w)
        else (.ok .noWarnings, new, w)

/-! ## The other calls -/

/-- The condition of `confirm-existence.sql` and of `set-yank.sql`. -/
def Db.selects (db : Db) (crateName version : String) (cv : ℕ × VersionRow) : Bool :=
  cv.2.version = version &&
    db.crates.rows.any fun c => c.1 = cv.2.crate && c.2.name = crateName && c.2.registry = ""

def Db.versionRows (db : Db) (crateName version : String) : List (ℕ × VersionRow) :=
  db.crateVersions.rows.filter (db.selects crateName version)

def confirmExistence (io : Io) (db : Db) (crateName : String) (version : Version) :
    Option (Except IndexError CrateVersionExists) :=
  if io.fails .connect then none
  else if io.fails .prepare || io.fails (.confirmExistence crateName version.display) then
    some (.error .serviceError)
  else
    match db.versionRows crateName version.display with
    | [] => some (.error .notFound)
    | row :: _ =>
      match fromHex row.2.cksum with
      | none => some (.error .serviceError)
      | some cksum => some (.ok ⟨row.2.yanked, cksum⟩)

/-- What `set-yank.sql` sets in a row. -/
def Db.flag (db : Db) (crateName version : String) (yanked : Bool) (cv : ℕ × VersionRow) :
    VersionRow :=
  if db.selects crateName version cv then { cv.2 with yanked := yanked } else cv.2

theorem Db.flag_key (db : Db) (crateName version : String) (yanked : Bool)
    (cv : ℕ × VersionRow) :
    ((db.flag crateName version yanked cv).crate, (db.flag crateName version yanked cv).version) =
      (cv.2.crate, cv.2.version) := by
  unfold Db.flag
  split_ifs <;> rfl

/-- `set-yank.sql`. -/
def Db.setYank (db : Db) (crateName version : String) (yanked : Bool) : Db :=
  { db with
    crateVersions := db.crateVersions.update (db.flag crateName version yanked)
      (db.flag_key crateName version yanked) }

def yankInner (io : Io) (db : Db) (crateName : String) (version : Version) (yank : Bool) :
    Option (Except IndexError Unit) × Db :=
  if io.fails .connect then (none, db)
  else if io.fails .prepare || io.fails (.setYank crateName version.display) then
    (some (.error .serviceError), db)
  else
    let updated := db.setYank crateName version.display yank
    match db.versionRows crateName version.display with
    | [] =>
      (some (.error (.conflict "Tried to set yank status to an identical status")), updated)
    | [_] => (some (.ok ()), updated)
    | _ :: _ :: _ => (none, updated)

/-- `get-dependencies.sql`: with each dependency, the name and the registry of its crate. -/
def Db.getDependencies (db : Db) (version : ℕ) : List (DependencyRow × String × String) :=
  (db.dependencies.rows.filter (·.2.dependent = version)).flatMap fun d =>
    (db.crates.rows.filter (·.1 = d.2.dependency)).map fun c => (d.2, c.2.name, c.2.registry)

/-- `get-features.sql`, collected. -/
def Db.getFeatures (db : Db) (version : ℕ) : HashMap String (List String) :=
  HashMap.collect ((db.features.rows.filter (·.2.crateVersion = version)).map fun f =>
    (f.2.name, f.2.values))

variable (S : Semver)

/-- The dependency of an entry that is built from a row. -/
def readDependency (row : DependencyRow × String × String) : Except IndexError Dependency :=
  match S.parseReq row.1.req with
  | none => .error .serviceError
  | some req =>
    .ok { name := row.2.1
          req := req
          features := row.1.features
          optional := row.1.optional
          defaultFeatures := row.1.defaultFeatures
          target := row.1.target
          kind := row.1.kind
          registry := (some row.2.2).filter (· ≠ "")
          package := row.1.package }

/-- The entry that is built from the rows of a version. -/
def readEntry (io : Io) (db : Db) (crateName : String) (row : ℕ × VersionRow) :
    Except IndexError CrateVersion :=
  if io.fails (.getFeatures row.1) || io.fails (.getDependencies row.1) then .error .serviceError
  else
    match (db.getDependencies row.1).mapM (readDependency S) with
    | .error e => .error e
    | .ok deps =>
      match fromHex row.2.cksum, S.parseVersion row.2.version with
      | some cksum, some vers =>
        .ok { name := crateName
              vers := vers
              deps := deps
              cksum := cksum
              features := db.getFeatures row.1
              yanked := row.2.yanked
              links := row.2.links
              v := 2
              features2 := ∅ }
      | _, _ => .error .serviceError

def getSparseEntry (io : Io) (db : Db) (crateName : String) :
    Option (Except IndexError (List CrateVersion)) :=
  if io.fails .connect || io.fails .prepare || io.fails (.getCrate crateName) then
    some (.error .serviceError)
  else
    match db.crates.rows.filter fun c => c.2.name = crateName && c.2.registry = "" with
    | [] => some (.error .notFound)
    | [crate] =>
      if io.fails .getVersions then some (.error .serviceError)
      else
        some ((db.crateVersions.rows.filter (·.2.crate = crate.1)).mapM
          (readEntry S io db crateName))
    | _ :: _ :: _ => none

end PgIndex

end Freighter
