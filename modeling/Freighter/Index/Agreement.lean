import Freighter.FsIndex.Catalog
import Freighter.Pg.Catalog

/-!
# When the two index providers agree

Both providers are the catalog, and differ in how they refuse: a yank of a version that is not there
is `NotFound` for the filesystem and a conflict for Postgres.

* `Agree`: equal results or errors of one kind; **`agree_along`**: every call of a run agrees iff
  every yank is of a known version;
* **`providers_agree_iff`**: so the providers agree on a run of calls iff every yank in it is of a
  version that was published before.
-/

namespace Freighter

open FsIndex (IndexOp Outcome)

/-- The same variant of `IndexError`. -/
def IndexError.SameVariant : IndexError → IndexError → Prop
  | .conflict _, .conflict _ => True
  | .crateNameNotAllowed, .crateNameNotAllowed => True
  | .notFound, .notFound => True
  | .serviceError, .serviceError => True
  | _, _ => False

/-- Equal results, or errors of the same variant; a panic agrees with nothing. -/
def Agree : Outcome → Option Outcome → Prop
  | .ok a, some (.ok b) => a = b
  | .error e, some (.error e') => e.SameVariant e'
  | _, _ => False

/-- The call is no yank of a version that is not known. -/
def YanksKnown (c : Catalog) : IndexOp → Prop
  | .yank name version _ => (c name version).isSome
  | _ => True

/-! ## One call -/

section Step

variable {c : Catalog}

/-- **The two catalogs agree on a call** iff it is no yank of a version that is not known. -/
theorem agree_iff (op : IndexOp) :
    Agree (c.answer FsIndex.refusals op) (some (c.answer PgIndex.refusals op)) ↔
      YanksKnown c op := by
  cases op with
  | publish p ck =>
    simp only [Catalog.answer, YanksKnown, iff_true]
    split_ifs
    · exact trivial
    · rfl
  | yank name version flag =>
    simp only [Catalog.answer, YanksKnown]
    split_ifs with h
    · simp [Agree, h]
    · simp [Agree, h, IndexError.SameVariant, FsIndex.refusals, PgIndex.refusals]
  | confirm name version =>
    simp only [Catalog.answer, YanksKnown, iff_true]
    cases c name version with
    | none => exact trivial
    | some e => rfl

end Step

/-! ## Runs -/

/-- The catalog of the Postgres index, whose calls could panic. -/
def pgCatalogStep (c : Catalog) (op : IndexOp) : Option Outcome × Catalog :=
  (some (c.answer PgIndex.refusals op), c.next op)

/-- **Every call agrees iff every yank is of a known version.** -/
theorem agree_along (c : Catalog) (ops : List IndexOp) :
    List.Forall₂ Agree (Run.outputs (Catalog.step FsIndex.refusals) c ops)
        (Run.outputs pgCatalogStep c ops) ↔
      Run.Along (Catalog.step FsIndex.refusals) YanksKnown c ops := by
  induction ops generalizing c with
  | nil => exact ⟨fun _ => trivial, fun _ => .nil⟩
  | cons op ops ih =>
    have hhead := agree_iff (c := c) op
    constructor
    · intro h
      cases h with
      | cons hop hrest => exact ⟨hhead.mp hop, (ih _).mp hrest⟩
    · rintro ⟨hop, hrest⟩
      exact .cons (hhead.mpr hop) ((ih _).mpr hrest)

/-- Every yank is of a version that is published before it. -/
def YanksPublished (ops : List IndexOp) : Prop :=
  ∀ before name version flag after, ops = before ++ .yank name version flag :: after →
    ∃ p ck, .publish p ck ∈ before ∧ p.name = name ∧ p.vers = version

theorem along_yanksKnown (ops : List IndexOp) :
    Run.Along (Catalog.step FsIndex.refusals) YanksKnown Catalog.empty ops ↔
      YanksPublished ops := by
  have hknown : ∀ before name version, (Run.final (Catalog.step FsIndex.refusals) Catalog.empty
      before name version).isSome ↔
        ∃ p ck, .publish p ck ∈ before ∧ p.name = name ∧ p.vers = version := by
    intro before name version
    rw [Catalog.isSome_final]
    constructor
    · rintro (h | ⟨op, hop, p, ck, rfl, hp⟩)
      · cases h
      · exact ⟨p, ck, hop, hp⟩
    · rintro ⟨p, ck, hop, hp⟩
      exact Or.inr ⟨_, hop, p, ck, rfl, hp⟩
  rw [Run.along_iff]
  constructor
  · intro h before name version flag after hops
    exact (hknown before name version).mp (h before _ after hops)
  · intro h before op after hops
    cases op with
    | yank name version flag =>
      exact (hknown before name version).mpr (h before name version flag after hops)
    | publish p ck => exact trivial
    | confirm name version => exact trivial

/-! ## The providers -/

/-- A call on the filesystem index that nothing disturbs. -/
def fsStep (L : Libs) (files : FsIndex.Files) (op : IndexOp) : Outcome × FsIndex.Files :=
  op.run L files

/-- A call on the Postgres index that nothing disturbs. -/
def pgStep (db : PgIndex.Db) (op : IndexOp) : Option Outcome × PgIndex.Db :=
  PgIndex.step db (.undisturbed op)

/-- What the filesystem index answers, from no files. -/
def fsOutcomes (L : Libs) (ops : List IndexOp) : List Outcome :=
  Run.outputs (fsStep L) (fun _ => none) ops

/-- What the Postgres index answers, from an empty database. -/
def pgOutcomes (ops : List IndexOp) : List (Option Outcome) :=
  Run.outputs pgStep PgIndex.Db.empty ops

theorem fsOutcomes_eq (L : Libs) {ops : List IndexOp}
    (h : ∀ op ∈ ops, FsIndex.Allowed op.crateName) :
    fsOutcomes L ops = Run.outputs (Catalog.step FsIndex.refusals) Catalog.empty ops := by
  have hsim : ∀ files c op, FsIndex.Shows L files c → FsIndex.Allowed op.crateName →
      (fsStep L files op).1 = (c.step FsIndex.refusals op).1 ∧
        FsIndex.Shows L (fsStep L files op).2 (c.step FsIndex.refusals op).2 :=
    fun _ _ _ hs ha => FsIndex.run_shows hs ha
  have halong : Run.Along (fsStep L) (fun _ op => FsIndex.Allowed op.crateName) (fun _ => none)
      ops := by
    rw [Run.along_iff]
    rintro before op after rfl
    exact h op (List.mem_append_right _ List.mem_cons_self)
  exact Run.outputs_eq_of_sim hsim halong FsIndex.shows_empty

theorem pgOutcomes_eq (ops : List IndexOp) :
    pgOutcomes ops = Run.outputs pgCatalogStep Catalog.empty ops := by
  have hsim : ∀ db c op, PgIndex.Shows db c → True →
      (pgStep db op).1 = (pgCatalogStep c op).1 ∧
        PgIndex.Shows (pgStep db op).2 (pgCatalogStep c op).2 :=
    fun _ _ op hs _ => PgIndex.step_shows hs op
  have halong : Run.Along pgStep (fun _ _ => True) PgIndex.Db.empty ops := by
    rw [Run.along_iff]
    exact fun _ _ _ _ => trivial
  exact Run.outputs_eq_of_sim hsim halong PgIndex.shows_empty

/-- **The providers agree but for yanks of what is not there.** For every run of calls on allowed
lowercase names, from empty state and without failures, all answers agree iff every yank and unyank
is of a version that a call before it publishes. -/
theorem providers_agree_iff (L : Libs) (ops : List IndexOp)
    (h : ∀ op ∈ ops, FsIndex.Allowed op.crateName) :
    List.Forall₂ Agree (fsOutcomes L ops) (pgOutcomes ops) ↔ YanksPublished ops := by
  rw [fsOutcomes_eq L h, pgOutcomes_eq, agree_along, along_yanksKnown]

theorem allowed_foo : FsIndex.Allowed "foo" := ⟨by decide, "index/3/f/foo", by decide⟩

/-- A publish, a duplicate, two yanks of the version, and two questions. -/
theorem providers_agree_foo :
    let ops : List IndexOp := [.publish foo (abcHash []), .publish foo (abcHash []),
      .yank "foo" (Version.new 0 0 0) true, .yank "foo" (Version.new 0 0 0) true,
      .confirm "foo" (Version.new 0 0 0), .confirm "foo" (Version.new 0 0 1)]
    List.Forall₂ Agree (fsOutcomes Libs.canonical ops) (pgOutcomes ops) := by
  intro ops
  refine (providers_agree_iff Libs.canonical ops ?_).mpr ?_
  · intro op hop
    have hname : ∀ op ∈ ops, op.crateName = "foo" := by decide
    rw [hname op hop]
    exact allowed_foo
  · exact (along_yanksKnown ops).mp ⟨trivial, trivial, rfl, rfl, trivial, trivial, trivial⟩

/-- A yank of a crate that is not there. -/
theorem yank_of_missing_disagrees :
    let ops : List IndexOp := [.yank "foo" (Version.new 0 0 0) true]
    fsOutcomes Libs.canonical ops = [.error .notFound] ∧
      pgOutcomes ops =
        [some (.error (.conflict "Tried to set yank status to an identical status"))] ∧
      ¬ List.Forall₂ Agree (fsOutcomes Libs.canonical ops) (pgOutcomes ops) := by
  intro ops
  have hallowed : ∀ op ∈ ops, FsIndex.Allowed op.crateName := by
    intro op hop
    rw [List.mem_singleton.mp hop]
    exact allowed_foo
  have hfs : fsOutcomes Libs.canonical ops = [.error .notFound] := by
    rw [fsOutcomes_eq _ hallowed]
    rfl
  have hpg : pgOutcomes ops =
      [some (.error (.conflict "Tried to set yank status to an identical status"))] := by
    rw [pgOutcomes_eq]
    rfl
  refine ⟨hfs, hpg, ?_⟩
  rw [hfs, hpg]
  rintro (_ | ⟨h, -⟩)
  exact h

end Freighter
