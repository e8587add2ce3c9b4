import Freighter.Lib.Interleaving
import Freighter.Lib.Versioned
import Freighter.Pg.Model

/-!
# Two publishes at a time

The statements of the publish transaction, in a database in which another publish is running, at
the isolation level `READ COMMITTED`: a statement sees what was committed when it began, and what
its own transaction has done. An insertion whose key the other transaction has inserted waits until
that has ended, and so does a statement that changes a row the other has changed.

* `transaction`: the program of `publish`; **`run_transaction`**: alone it is `insertRelease`;
* `Tables`, `attempt`: each statement of `sql/publish`, with its foreign keys;
* **`shared_keyword_fails`**: a keyword that is new in both publishes makes one of them fail.

Whether `on conflict do nothing` also waits for a change of the row it runs into is a parameter. No
statement deletes a row that a foreign key refers to, or changes its id.
-/

namespace Freighter

namespace PgIndex

namespace Concurrent

open Interleaving (Attempt)
open Versioned (ids withKey)

/-! ## The program -/

/-- The statements of the transaction, with their parameters. -/
inductive Query where
  | getOrInsertCrate (name : String)
  | updateCrate (id : ℕ) (p : Publish)
  | getCrateLabels (l : Label) (crate : ℕ)
  | insertLabel (l : Label) (name : String)
  | insertCrateLabel (l : Label) (crate label : ℕ)
  | removeCrateLabel (l : Label) (crate : ℕ) (name : String)
  | insertVersion (crate : ℕ) (p : Publish) (tarballChecksum : Checksum)
  | insertDependency (versionId : ℕ) (d : PublishDependency)
  | insertFeature (versionId : ℕ) (feature : String × List String)

/-- What is read of the rows that a statement gives. -/
abbrev Query.Answer : Query → Type
  | .getOrInsertCrate _ => ℕ × CrateRow
  | .getCrateLabels _ _ => List String
  | .insertLabel _ _ => ℕ
  | .insertVersion _ _ _ => ℕ
  | _ => Unit

abbrev Program (α : Type) : Type := Prog Query Query.Answer α

def refreshCrate (crate : ℕ × CrateRow) (p : Publish) : Program Unit :=
  if crate.2.differs p then Prog.ask (Query.updateCrate crate.1 p) else Prog.done ()

def addLabel (l : Label) (crate : ℕ) (name : String) : Program Unit := do
  let id ← Prog.ask (Query.insertLabel l name)
  Prog.ask (Query.insertCrateLabel l crate id)

def addLabels (l : Label) (crate : ℕ) (wanted had : List String) : Program Unit :=
  Prog.each (addLabel l crate) (wanted.filter fun k => !had.contains k)

def pruneLabels (l : Label) (crate : ℕ) (wanted had : List String) : Program Unit :=
  Prog.each (fun k => Prog.ask (Query.removeCrateLabel l crate k))
    (had.filter fun k => !wanted.contains k)

def refreshLabels (crate : ℕ) (p : Publish) : Program Unit := do
  let keywords ← Prog.ask (Query.getCrateLabels .keyword crate)
  let categories ← Prog.ask (Query.getCrateLabels .category crate)
  addLabels .keyword crate p.keywords keywords
  addLabels .category crate p.categories categories
  pruneLabels .keyword crate p.keywords keywords
  pruneLabels .category crate p.categories categories

/-- The statements of a publish, up to `end_step`. -/
def transaction (p : Publish) (tarballChecksum : Checksum) : Program Unit := do
  let crate ← Prog.ask (Query.getOrInsertCrate p.name)
  refreshCrate crate p
  refreshLabels crate.1 p
  let versionId ← Prog.ask (Query.insertVersion crate.1 p tarballChecksum)
  Prog.each (fun d => Prog.ask (Query.insertDependency versionId d)) p.deps
  Prog.each (fun f => Prog.ask (Query.insertFeature versionId f)) p.features.iter

/-- The statement in a database that nobody else uses. -/
def Query.alone : (q : Query) → Step q.Answer
  | .getOrInsertCrate name =>
    statement {} (.getOrInsertCrate name) (PgIndex.getOrInsertCrate name)
  | .updateCrate id p =>
    statement {} (.updateCrate p.description p.documentation p.homepage p.repository)
      (PgIndex.updateCrate id p)
  | .getCrateLabels l crate => statement {} (.getCrateLabels l) (PgIndex.getCrateLabels l crate)
  | .insertLabel l name => statement {} (.insertLabel l name) (PgIndex.insertLabel l name)
  | .insertCrateLabel l crate label =>
    statement {} (.insertCrateLabel l "") (PgIndex.insertCrateLabel l crate label)
  | .removeCrateLabel l crate name =>
    statement {} (.removeCrateLabel l name) (PgIndex.removeCrateLabel l crate name)
  | .insertVersion crate p tarballChecksum => PgIndex.insertVersion {} crate p tarballChecksum
  | .insertDependency versionId d =>
    statement {} (.insertDependency d) (PgIndex.insertDependency versionId d)
  | .insertFeature versionId feature => PgIndex.insertFeature {} versionId feature

theorem run_refreshCrate (crate : ℕ × CrateRow) (p : Publish) :
    (refreshCrate crate p).run Query.alone = PgIndex.refreshCrate {} crate p := by
  unfold refreshCrate PgIndex.refreshCrate
  split_ifs
  · exact Prog.run_ask _ _
  · rfl

theorem run_addLabels (l : Label) (crate : ℕ) (wanted had : List String) :
    (addLabels l crate wanted had).run Query.alone =
      PgIndex.addLabels {} l crate wanted had := Prog.run_each _ _ _

theorem run_pruneLabels (l : Label) (crate : ℕ) (wanted had : List String) :
    (pruneLabels l crate wanted had).run Query.alone =
      PgIndex.pruneLabels {} l crate wanted had := Prog.run_each _ _ _

theorem run_refreshLabels (crate : ℕ) (p : Publish) :
    (refreshLabels crate p).run Query.alone = PgIndex.refreshLabels {} crate p := by
  unfold refreshLabels PgIndex.refreshLabels
  simp only [Prog.run_bind, Prog.run_ask, run_addLabels, run_pruneLabels]
  rfl

/-- **A publish that runs alone** is the transaction of the model of one call at a time. -/
theorem run_transaction (p : Publish) (tarballChecksum : Checksum) :
    (transaction p tarballChecksum).run Query.alone = insertRelease {} p tarballChecksum := by
  unfold transaction insertRelease
  simp only [Prog.run_bind, Prog.run_ask, run_refreshCrate, run_refreshLabels, Prog.run_each]
  rfl

/-! ## The database -/

/-- The tables that two publishes change at a time. -/
structure Tables where
  crates : Versioned CrateRow
  labels : Label → Versioned String
  crateLabels : Label → Versioned (ℕ × ℕ)
  versions : Versioned VersionRow
  features : Versioned FeatureRow
  dependencies : Versioned DependencyRow
  ended : Bool → Bool

/-- The tables before the two transactions. -/
def Tables.ofDb (db : Db) : Tables where
  crates := .ofRows db.crates.rows db.crates.next
  labels l := .ofRows (db.labels l).names.rows (db.labels l).names.next
  crateLabels l := .ofRows (db.labels l).ofCrates.rows (db.labels l).ofCrates.next
  versions := .ofRows db.crateVersions.rows db.crateVersions.next
  features := .ofRows db.features.rows db.features.next
  dependencies := .ofRows db.dependencies.rows db.dependencies.next
  ended _ := false

def Tables.setLabels (s : Tables) (l : Label) (t : Versioned String) : Tables :=
  { s with labels := Function.update s.labels l t }

@[simp] theorem Tables.labels_setLabels (s : Tables) (l : Label) (t : Versioned String) :
    (s.setLabels l t).labels l = t := Function.update_self ..

def Tables.setCrateLabels (s : Tables) (l : Label) (t : Versioned (ℕ × ℕ)) : Tables :=
  { s with crateLabels := Function.update s.crateLabels l t }

def crateKey (r : CrateRow) : String × String := (r.name, r.registry)

def versionKey (r : VersionRow) : ℕ × String := (r.crate, r.version)

def featureKey (r : FeatureRow) : ℕ × String := (r.crateVersion, r.name)

/-- The row that `insert-version.sql` inserts. -/
def versionRow (crate : ℕ) (p : Publish) (tarballChecksum : Checksum) : VersionRow :=
  ⟨crate, p.vers.display, hexEncode tarballChecksum, false, p.links⟩

/-- The rows that `remove-crate-keyword.sql` and `remove-crate-category.sql` find. -/
def Tables.crateLabelIds (s : Tables) (i : Bool) (l : Label) (crate : ℕ) (name : String) :
    List ℕ :=
  ids (((s.crateLabels l).view i).filter fun r =>
    r.2.1 = crate && (ids (withKey id ((s.labels l).view i) name)).contains r.2.2)

/-- The names that `get-crate-keywords.sql` and `get-crate-categories.sql` give. -/
def Tables.crateLabelNames (s : Tables) (i : Bool) (l : Label) (crate : ℕ) : List String :=
  (((s.crateLabels l).view i).filter (·.2.1 = crate)).flatMap fun r =>
    (((s.labels l).view i).filter (·.1 = r.2.2)).map Prod.snd

/-- A statement of transaction `i` that began in the state `began`. -/
def attempt (waitsForUpdates : Bool) (i : Bool) (began : Tables) :
    (q : Query) → Tables → Attempt Tables IndexError q.Answer
  | .getOrInsertCrate name, s =>
    match s.crates.upsert crateKey i (CrateRow.bare name "") with
    | none => .waits
    | some (r, t) => .answers r { s with crates := t }
  | .updateCrate id p, s =>
    if s.crates.held i id then .waits
    else
      match (s.crates.view i).find? (·.1 = id) with
      | none => .answers () s
      | some r => .answers () { s with crates := s.crates.put i (r.1, CrateRow.refresh id p r) }
  | .getCrateLabels l crate, s => .answers (began.crateLabelNames i l crate) s
  | .insertLabel l name, s =>
    match (s.labels l).insert id waitsForUpdates i name with
    | none => .waits
    | some (ins, t) =>
      match ins.toList ++ ids (withKey id ((began.labels l).view i) name) with
      | [label] => .answers label (s.setLabels l t)
      | _ => .fails .serviceError
  | .insertCrateLabel l crate label, s =>
    if crate ∈ ids (s.crates.view i) ∧ label ∈ ids ((s.labels l).view i) then
      .answers () (s.setCrateLabels l ((s.crateLabels l).add i (crate, label)))
    else .fails .serviceError
  | .removeCrateLabel l crate name, s =>
    let found := began.crateLabelIds i l crate name
    if found.any ((s.crateLabels l).held i) then .waits
    else
      -- what the other has changed since the statement began is looked at again
      .answers () (s.setCrateLabels l
        ((s.crateLabels l).drop i ((s.crateLabelIds i l crate name).filter (· ∈ found))))
  | .insertVersion crate p tarballChecksum, s =>
    match s.versions.insert versionKey true i (versionRow crate p tarballChecksum) with
    | none => .waits
    | some (some id, t) =>
      if crate ∈ ids (s.crates.view i) then .answers id { s with versions := t }
      else .fails (.conflict "Failed to insert version")
    | some (none, _) => .fails (.conflict "Failed to insert version")
  | .insertDependency versionId d, s =>
    let name := (d.name, d.registry.getD "")
    match s.crates.insert crateKey waitsForUpdates i (CrateRow.bare name.1 name.2) with
    | none => .waits
    | some (ins, t) =>
      match ins.toList ++ ids (withKey crateKey (began.crates.view i) name) with
      | [crate] =>
        if versionId ∈ ids (s.versions.view i) ∧ crate ∈ ids (t.view i) then
          .answers () { s with
            crates := t
            dependencies := s.dependencies.add i (dependencyRow versionId crate d) }
        else .fails .serviceError
      -- no row is a null, and two rows are not one value
      | _ => .fails .serviceError
  | .insertFeature versionId feature, s =>
    match s.features.insert featureKey true i ⟨versionId, feature.1, feature.2⟩ with
    | none => .waits
    | some (some _, t) =>
      if versionId ∈ ids (s.versions.view i) then .answers () { s with features := t }
      else .fails .serviceError
    | some (none, _) => .fails .serviceError

def Tables.commit (i : Bool) (s : Tables) : Tables where
  crates := s.crates.commit i
  labels l := (s.labels l).commit i
  crateLabels l := (s.crateLabels l).commit i
  versions := s.versions.commit i
  features := s.features.commit i
  dependencies := s.dependencies.commit i
  ended := Function.update s.ended i true

def Tables.abort (i : Bool) (s : Tables) : Tables where
  crates := s.crates.abort i
  labels l := (s.labels l).abort i
  crateLabels l := (s.crateLabels l).abort i
  versions := s.versions.abort i
  features := s.features.abort i
  dependencies := s.dependencies.abort i
  ended := Function.update s.ended i true

/-- The database, where `on conflict do nothing` waits for an update if `waitsForUpdates` is set. -/
def database (waitsForUpdates : Bool) :
    Interleaving.Database Tables IndexError Query Query.Answer where
  attempt := attempt waitsForUpdates
  commit := Tables.commit
  abort := Tables.abort

/-- Two publishes begin. The end steps succeed. -/
def begin (db : Db) (p : Bool → Publish) (tarballChecksum : Bool → Checksum) :
    Interleaving.State Tables IndexError Query Query.Answer :=
  Interleaving.initial (Tables.ofDb db) fun i => transaction (p i) (tarballChecksum i)

/-! ## A shared keyword -/

/-- A crate with one keyword. -/
def tagged (name keyword : String) : Publish :=
  { Publish.empty with name := name, keywords := [keyword] }

/-- Crates `a` and `b` with the same keyword. -/
def bothTagged (i : Bool) : Publish := tagged (if i then "a" else "b") "tls"

/-- The steps of a run in which `b` waits for the keyword of `a`, and `a` commits. -/
def race : List Interleaving.Label :=
  [true, true, true, true, false, false, false, false, true, true, true, false].map .run

def hasFailed (s : Interleaving.State Tables IndexError Query Query.Answer) (i : Bool) : Bool :=
  match s.pc i with
  | .failed _ => true
  | _ => false

/-- **Both publishes bring a new keyword, and one of them fails**: its insertion waits for the
other, and the query of the same statement does not see what has been committed by then. -/
theorem shared_keyword_fails :
    ¬ Interleaving.BothCommit (database false)
        (begin Db.empty bothTagged fun _ => List.Vector.replicate 32 0) ∧
      ¬ Interleaving.BothCommit (database true)
        (begin Db.empty bothTagged fun _ => List.Vector.replicate 32 0) := by
  have hrun : ∀ waits, ∃ s, Run.exec (Interleaving.step (database waits))
      (begin Db.empty bothTagged fun _ => List.Vector.replicate 32 0) race = some s ∧
        hasFailed s false = true := by
    intro waits
    have hfails : ((Run.exec (Interleaving.step (database waits))
        (begin Db.empty bothTagged fun _ => List.Vector.replicate 32 0) race).any
          (hasFailed · false)) = true := by
      revert waits
      decide +kernel
    rwa [Option.any_eq_true] at hfails
  have hnot : ∀ waits, ¬ Interleaving.BothCommit (database waits)
      (begin Db.empty bothTagged fun _ => List.Vector.replicate 32 0) := by
    intro waits h
    obtain ⟨s, hs, hfailed⟩ := hrun waits
    unfold hasFailed at hfailed
    split at hfailed
    · rename_i e he
      exact h.no_failure race s hs false e he
    · cases hfailed
  exact ⟨hnot false, hnot true⟩

end Concurrent

end PgIndex

end Freighter
