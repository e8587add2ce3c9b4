import Freighter.Pg.Sparse

/-!
# The crates of the database

The `crates` table has the crates that were published and those that are dependencies only.

* `crateKeys p`: the names and registries of the crates that a publish of `p` refers to;
* **`named_publish`**: a publish that commits adds these crates, unless they are there, and no
  other.
-/

namespace Freighter

namespace PgIndex

/-- The crate itself and its dependencies, each with its registry. -/
def crateKeys (p : Publish) : List (String × String) :=
  (p.name, "") :: p.deps.map fun d => (d.name, d.registry.getD "")

/-- The crates of `db'` are those of `db` and crates of these keys. -/
def Adds (keys : List (String × String)) (db db' : Db) : Prop :=
  ∀ c ∈ db'.named, c ∈ db.named ∨ c.2 ∈ keys

section Adds

variable {io : Io} {db db' db'' : Db} {keys keys' : List (String × String)} {p : Publish}
  {ck : Checksum} {l : Label} {crate versionId : ℕ}

theorem Adds.of_eq (h : db'.named = db.named) : Adds keys db db' :=
  fun _ hx => Or.inl (h ▸ hx)

theorem Adds.trans (h : Adds keys db db') (h' : Adds keys db' db'') : Adds keys db db'' := by
  intro x hx
  rcases h' x hx with hx | hx
  · exact h x hx
  · exact Or.inr hx

theorem Adds.mono (h : Adds keys db db') (hsub : keys ⊆ keys') : Adds keys' db db' :=
  fun x hx => (h x hx).imp_right fun hk => hsub hk

theorem adds_getOrInsert {name registry : String} {c : ℕ × CrateRow} {t}
    (h : db.crates.getOrInsert (CrateRow.bare name registry) = (c, t))
    (hnamed : db'.named = Db.named { db with crates := t }) :
    Adds [(name, registry)] db db' := by
  obtain ⟨c', t', ht, -, -, hrows⟩ := db.crates.getOrInsert_spec (CrateRow.bare name registry)
  cases h.symm.trans ht
  intro x hx
  rw [hnamed] at hx
  rcases hrows with hrows | ⟨rfl, hrows⟩
  · refine Or.inl ?_
    unfold Db.named at hx
    rwa [hrows] at hx
  · unfold Db.named at hx
    rw [hrows, List.map_append, List.mem_append] at hx
    refine hx.imp_right fun hx => ?_
    rw [List.mem_singleton.mp hx]
    exact List.mem_singleton_self _

theorem named_refreshCrate {c : ℕ × CrateRow} (h : refreshCrate io c p db = (.ok (), db')) :
    db'.named = db.named := by
  unfold refreshCrate at h
  split_ifs at h
  · obtain ⟨-, h⟩ := statement_eq_ok.mp h
    cases h
    exact named_updateCrate c.1 p db
  · obtain ⟨-, rfl⟩ := Tx.answer_eq_ok.mp h
    rfl

theorem named_addLabel {name : String} (h : addLabel io l crate name db = (.ok (), db')) :
    db'.named = db.named := by
  obtain ⟨id, db₁, h₁, h₂⟩ := Tx.bind_eq_ok.mp h
  obtain ⟨-, h₁⟩ := statement_eq_ok.mp h₁
  obtain ⟨-, h₂⟩ := statement_eq_ok.mp h₂
  cases h₁
  cases h₂
  rfl

theorem named_addLabels {wanted had : List String}
    (h : addLabels io l crate wanted had db = (.ok (), db')) : db'.named = db.named :=
  Tx.each_rel (R := fun s t => Db.named t = s.named) (fun _ => rfl) (fun hst htu => htu.trans hst)
    (fun _ _ _ hstep => named_addLabel hstep) h

theorem named_pruneLabels {wanted had : List String}
    (h : pruneLabels io l crate wanted had db = (.ok (), db')) : db'.named = db.named := by
  refine Tx.each_rel (R := fun s t => Db.named t = s.named) (fun _ => rfl)
    (fun hst htu => htu.trans hst) (fun _ _ _ hstep => ?_) h
  obtain ⟨-, hstep⟩ := statement_eq_ok.mp hstep
  cases hstep
  rfl

theorem named_refreshLabels (h : refreshLabels io crate p db = (.ok (), db')) :
    db'.named = db.named := by
  obtain ⟨keywords, db₁, h₁, h⟩ := Tx.bind_eq_ok.mp h
  obtain ⟨-, h₁⟩ := statement_eq_ok.mp h₁
  cases h₁
  obtain ⟨categories, db₂, h₂, h⟩ := Tx.bind_eq_ok.mp h
  obtain ⟨-, h₂⟩ := statement_eq_ok.mp h₂
  cases h₂
  obtain ⟨_, db₃, h₃, h⟩ := Tx.bind_eq_ok.mp h
  obtain ⟨_, db₄, h₄, h⟩ := Tx.bind_eq_ok.mp h
  obtain ⟨_, db₅, h₅, h⟩ := Tx.bind_eq_ok.mp h
  exact (named_pruneLabels h).trans ((named_pruneLabels h₅).trans
    ((named_addLabels h₄).trans (named_addLabels h₃)))

theorem adds_insertDependencies {deps : List PublishDependency}
    (h : Tx.each (fun d => statement io (.insertDependency d) (insertDependency versionId d)) deps
      db = (.ok (), db')) : Adds (deps.map fun d => (d.name, d.registry.getD "")) db db' := by
  induction deps generalizing db with
  | nil =>
    obtain ⟨-, rfl⟩ := Tx.answer_eq_ok.mp h
    exact .of_eq rfl
  | cons d deps ih =>
    obtain ⟨db₁, h₁, h⟩ := Tx.each_cons_eq_ok.mp h
    obtain ⟨-, h₁⟩ := statement_eq_ok.mp h₁
    have hd : Adds [(d.name, d.registry.getD "")] db db₁ := by
      cases h₁
      exact adds_getOrInsert rfl rfl
    rw [List.map_cons]
    exact (hd.mono (by simp)).trans ((ih h).mono (List.subset_cons_self _ _))

/-- **A transaction adds no other crates.** -/
theorem adds_insertRelease (h : insertRelease io p ck db = (.ok (), db')) :
    Adds (crateKeys p) db db' := by
  obtain ⟨c, db₁, h₁, h⟩ := Tx.bind_eq_ok.mp h
  obtain ⟨_, db₂, h₂, h⟩ := Tx.bind_eq_ok.mp h
  obtain ⟨_, db₃, h₃, h⟩ := Tx.bind_eq_ok.mp h
  obtain ⟨versionId, db₄, h₄, h⟩ := Tx.bind_eq_ok.mp h
  obtain ⟨_, db₅, h₅, h₆⟩ := Tx.bind_eq_ok.mp h
  obtain ⟨-, h₁⟩ := statement_eq_ok.mp h₁
  have hcrate : Adds (crateKeys p) db db₁ := by
    cases h₁
    exact (adds_getOrInsert rfl rfl).mono (by simp [crateKeys])
  have hfresh : db₄.named = db₁.named := by
    obtain ⟨-, t, rfl, -⟩ := insertVersion_eq_ok h₄
    exact (named_refreshLabels h₃).trans (named_refreshCrate h₂)
  have hdeps : Adds (crateKeys p) db₄ db₅ :=
    (adds_insertDependencies h₅).mono (List.subset_cons_self _ _)
  have hfeatures : db'.named = db₅.named := by
    obtain ⟨rows, t, rfl, -⟩ := insertFeatures_spec h₆
    rfl
  exact ((hcrate.trans (.of_eq hfresh)).trans hdeps).trans (.of_eq hfeatures)

end Adds

section Publish

variable {ω : Type} {io : Io} {db : Db} {p : Publish} {ck : Checksum}
  {endStep : ω → Except IndexError Unit × ω} {w : ω}

theorem insertRelease_of_publish (h : (publish io db p ck endStep w).1 = .ok .noWarnings) :
    insertRelease io p ck db = (.ok (), (publish io db p ck endStep w).2.1) := by
  unfold publish at h ⊢
  by_cases hstart : (io.fails .connect || io.fails .startTransaction || io.fails .prepare) = true
  · rw [if_pos hstart] at h
    cases h
  rw [if_neg hstart] at h ⊢
  cases hr : insertRelease io p ck db with
  | mk r new =>
    rw [hr] at h
    cases r with
    | error e => cases h
    | ok _ =>
      simp only at h ⊢
      cases he : endStep w with
      | mk r' w' =>
        rw [he] at h
        cases r' with
        | error e => cases h
        | ok _ =>
          simp only at h ⊢
          by_cases hcommit : io.fails .commit = true
          · rw [if_pos hcommit] at h
            cases h
          · rw [if_neg hcommit]

theorem exists_recorded {versionId : ℕ} {rows : List (ℕ × DependencyRow)}
    {deps : List PublishDependency} (h : List.Forall₂ (Recorded db versionId) rows deps)
    {d : PublishDependency} (hd : d ∈ deps) : ∃ r, Recorded db versionId r d := by
  induction h with
  | nil => cases hd
  | cons hr _ ih =>
    rcases List.mem_cons.mp hd with rfl | hd
    · exact ⟨_, hr⟩
    · exact ih hd

/-- **The crates after a publish that commits.** -/
theorem named_publish (h : (publish io db p ck endStep w).1 = .ok .noWarnings)
    (name registry : String) :
    (∃ id, (id, name, registry) ∈ (publish io db p ck endStep w).2.1.named) ↔
      (∃ id, (id, name, registry) ∈ db.named) ∨ (name, registry) ∈ crateKeys p := by
  have hrun := insertRelease_of_publish h
  obtain ⟨crate, versionId, hr⟩ := released_of_insertRelease hrun
  constructor
  · rintro ⟨id, hid⟩
    exact (adds_insertRelease hrun _ hid).imp_left fun hid => ⟨id, hid⟩
  · rintro (⟨id, hid⟩ | hkey)
    · exact ⟨id, hr.named.subset hid⟩
    · rcases List.mem_cons.mp hkey with heq | hkey
      · cases heq
        exact ⟨crate, hr.crate_named⟩
      · obtain ⟨d, hd, heq⟩ := List.mem_map.mp hkey
        cases heq
        obtain ⟨rows, -, hrec⟩ := hr.dependencies
        obtain ⟨r, hnamed, -⟩ := exists_recorded hrec hd
        exact ⟨_, hnamed⟩

end Publish

end PgIndex

end Freighter
