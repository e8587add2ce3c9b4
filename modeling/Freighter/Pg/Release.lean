import Freighter.Pg.Model

/-!
# What a publish transaction does to the tables

* `Prepared`: up to the insertion of the version only crates and labels change, and crates keep
  their ids and names;
* **`released_of_insertRelease`**: a transaction that goes through has appended one version, its
  features and its dependencies (`Released`).
-/

namespace Freighter

namespace PgIndex

/-- The ids, names and registries of the crates. -/
def Db.named (db : Db) : List (ℕ × String × String) :=
  db.crates.rows.map fun r => (r.1, r.2.name, r.2.registry)

/-- The references of `crate_keywords` or `crate_categories`. -/
def Labels.Linked (t : Labels) (crates : List ℕ) : Prop :=
  ∀ r ∈ t.ofCrates.rows, r.2.1 ∈ crates ∧ r.2.2 ∈ t.names.ids

/-- All labels are linked to crates that exist. -/
def Db.LabelsLinked (db : Db) : Prop := ∀ l, (db.labels l).Linked db.crates.ids

section Named

variable {db db' : Db} {c : ℕ × CrateRow} {id : ℕ} {name registry : String}

theorem mem_named : (id, name, registry) ∈ db.named ↔
    ∃ c ∈ db.crates.rows, c.1 = id ∧ c.2.name = name ∧ c.2.registry = registry := by
  simp [Db.named]

theorem mem_ids : id ∈ db.crates.ids ↔ ∃ name registry, (id, name, registry) ∈ db.named := by
  simp [Db.named, Table.ids]

theorem ids_subset (h : db.named <+: db'.named) : db.crates.ids ⊆ db'.crates.ids := by
  intro id hid
  obtain ⟨name, registry, hm⟩ := mem_ids.mp hid
  exact mem_ids.mpr ⟨name, registry, h.subset hm⟩

theorem eq_of_named_id {n n' r r' : String} (h : (id, n, r) ∈ db.named)
    (h' : (id, n', r') ∈ db.named) : n = n' ∧ r = r' := by
  obtain ⟨c, hc, hid, rfl, rfl⟩ := mem_named.mp h
  obtain ⟨c', hc', hid', rfl, rfl⟩ := mem_named.mp h'
  rw [Table.eq_of_id hc hc' (hid.trans hid'.symm)]
  exact ⟨rfl, rfl⟩

theorem eq_of_named_name {id' : ℕ} (h : (id, name, registry) ∈ db.named)
    (h' : (id', name, registry) ∈ db.named) : id = id' := by
  obtain ⟨c, hc, rfl, hn, hr⟩ := mem_named.mp h
  obtain ⟨c', hc', rfl, hn', hr'⟩ := mem_named.mp h'
  rw [Table.eq_of_key hc hc' (Prod.ext (hn.trans hn'.symm) (hr.trans hr'.symm))]

theorem Labels.Linked.mono {t : Labels} {crates crates' : List ℕ} (h : t.Linked crates)
    (hsub : crates ⊆ crates') : t.Linked crates' :=
  fun r hr => ⟨hsub (h r hr).1, (h r hr).2⟩

end Named

/-! ## Before the version is inserted -/

/-- Crates keep their ids and names, labels stay linked, and nothing else changes. -/
structure Prepared (db db' : Db) : Prop where
  named : db.named <+: db'.named
  labels : db.LabelsLinked → db'.LabelsLinked
  versions : db'.crateVersions = db.crateVersions
  features : db'.features = db.features
  dependencies : db'.dependencies = db.dependencies

theorem Prepared.refl (db : Db) : Prepared db db :=
  ⟨List.prefix_refl _, id, rfl, rfl, rfl⟩

theorem Prepared.trans {db db' db'' : Db} (h : Prepared db db') (h' : Prepared db' db'') :
    Prepared db db'' where
  named := h.named.trans h'.named
  labels hl := h'.labels (h.labels hl)
  versions := h'.versions.trans h.versions
  features := h'.features.trans h.features
  dependencies := h'.dependencies.trans h.dependencies

section Prepared

variable {α : Type} {io : Io} {stmt : Stmt} {f : Db → α × Db} {db db' : Db} {a : α} {p : Publish}
  {crate : ℕ} {l : Label}

theorem statement_eq_ok : statement io stmt f db = (.ok a, db') ↔
    io.fails stmt = false ∧ f db = (a, db') := by
  unfold statement
  by_cases h : io.fails stmt = true
  · simp [h]
  · simp [h, Prod.ext_iff]

/-- A crate that is got or inserted. -/
theorem getOrInsert_named (db : Db) (name registry : String) :
    ∃ c t, db.crates.getOrInsert (CrateRow.bare name registry) = (c, t) ∧
      db.named <+: Db.named { db with crates := t } ∧
      (c.1, name, registry) ∈ Db.named { db with crates := t } := by
  obtain ⟨c, t, ht, hkey, hmem, hrows⟩ :=
    db.crates.getOrInsert_spec (CrateRow.bare name registry)
  obtain ⟨hname, hregistry⟩ := Prod.ext_iff.mp hkey
  refine ⟨c, t, ht, ?_, mem_named.mpr ⟨c, hmem, rfl, hname, hregistry⟩⟩
  rcases hrows with hrows | ⟨-, hrows⟩
  · unfold Db.named
    rw [hrows]
  · unfold Db.named
    rw [hrows, List.map_append]
    exact List.prefix_append _ _

theorem prepared_crates {t} (h : db.named <+: Db.named { db with crates := t }) :
    Prepared db { db with crates := t } :=
  ⟨h, fun hl l => (hl l).mono (ids_subset h), rfl, rfl, rfl⟩

theorem prepared_getOrInsertCrate {name : String} {c : ℕ × CrateRow}
    (h : getOrInsertCrate name db = (c, db')) :
    Prepared db db' ∧ (c.1, name, "") ∈ db'.named := by
  obtain ⟨c', t, ht, hp, hm⟩ := getOrInsert_named db name ""
  unfold getOrInsertCrate at h
  rw [ht] at h
  cases h
  exact ⟨prepared_crates hp, hm⟩

theorem named_updateCrate (id : ℕ) (p : Publish) (db : Db) :
    (updateCrate id p db).2.named = db.named := by
  unfold Db.named updateCrate
  rw [Table.rows_update, List.map_map]
  refine List.map_congr_left fun r _ => ?_
  exact congrArg (Prod.mk r.1) (CrateRow.refresh_key id p r)

theorem prepared_refreshCrate {c : ℕ × CrateRow} {u : Unit}
    (h : refreshCrate io c p db = (.ok u, db')) : Prepared db db' := by
  unfold refreshCrate at h
  split_ifs at h
  · obtain ⟨-, h⟩ := statement_eq_ok.mp h
    cases h
    refine prepared_crates ?_
    rw [← named_updateCrate c.1 p db]
    exact List.prefix_refl _
  · obtain ⟨-, rfl⟩ := Tx.answer_eq_ok.mp h
    exact Prepared.refl db

/-! ## Labels -/

theorem prepared_setLabels {t : Labels}
    (h : (db.labels l).Linked db.crates.ids → t.Linked db.crates.ids) :
    Prepared db (db.setLabels l t) := by
  refine ⟨List.prefix_refl _, fun hl => ?_, rfl, rfl, rfl⟩
  exact (Function.forall_update_iff db.labels fun _ t => t.Linked db.crates.ids).mpr
    ⟨h (hl l), fun l' _ => hl l'⟩

theorem prepared_addLabel {name : String} (h : addLabel io l crate name db = (.ok (), db'))
    (hc : crate ∈ db.crates.ids) : Prepared db db' := by
  obtain ⟨id, db₁, h₁, h₂⟩ := Tx.bind_eq_ok.mp h
  obtain ⟨-, h₁⟩ := statement_eq_ok.mp h₁
  obtain ⟨-, h₂⟩ := statement_eq_ok.mp h₂
  obtain ⟨r, t, ht, -, hmem, hrows⟩ := (db.labels l).names.getOrInsert_spec name
  have hsub : (db.labels l).names.ids ⊆ t.ids := by
    rcases hrows with hrows | ⟨-, hrows⟩
    · unfold Table.ids
      rw [hrows]
      exact fun _ hm => hm
    · unfold Table.ids
      rw [hrows, List.map_append]
      exact List.subset_append_left _ _
  unfold insertLabel at h₁
  rw [ht] at h₁
  cases h₁
  have hlabels : (db.setLabels l { db.labels l with names := t }).labels l =
      { db.labels l with names := t } := Function.update_self _ _ _
  have hp₁ : Prepared db (db.setLabels l { db.labels l with names := t }) :=
    prepared_setLabels fun hl s hs => ⟨(hl s hs).1, hsub (hl s hs).2⟩
  refine hp₁.trans ?_
  unfold insertCrateLabel at h₂
  rw [hlabels] at h₂
  cases h₂
  refine prepared_setLabels fun hl => ?_
  rw [hlabels] at hl
  obtain ⟨t', hins, ht'⟩ := (db.labels l).ofCrates.insert_primary (crate, r.1)
  intro s hs
  simp only [hins, ht'] at hs
  rcases List.mem_append.mp hs with hs | hs
  · exact hl s hs
  · rw [List.mem_singleton.mp hs]
    exact ⟨hc, List.mem_map_of_mem hmem⟩

theorem prepared_removeCrateLabel {name : String} {u : Unit}
    (h : removeCrateLabel l crate name db = (u, db')) : Prepared db db' := by
  unfold removeCrateLabel at h
  cases h
  exact prepared_setLabels fun hl s hs => hl s (List.mem_of_mem_filter hs)

theorem prepared_addLabels {wanted had : List String}
    (h : addLabels io l crate wanted had db = (.ok (), db')) (hc : crate ∈ db.crates.ids) :
    Prepared db db' := by
  refine Tx.each_rel (R := fun s t => crate ∈ s.crates.ids → Prepared s t)
    (fun s _ => Prepared.refl s) (fun hst htu hs => ?_) (fun _ _ _ hstep => ?_) h hc
  · have hp := hst hs
    exact hp.trans (htu (ids_subset hp.named hs))
  · exact prepared_addLabel hstep

theorem prepared_pruneLabels {wanted had : List String}
    (h : pruneLabels io l crate wanted had db = (.ok (), db')) : Prepared db db' := by
  refine Tx.each_rel (R := Prepared) Prepared.refl Prepared.trans (fun _ _ _ hstep => ?_) h
  obtain ⟨-, hstep⟩ := statement_eq_ok.mp hstep
  exact prepared_removeCrateLabel hstep

theorem prepared_refreshLabels (h : refreshLabels io crate p db = (.ok (), db'))
    (hc : crate ∈ db.crates.ids) : Prepared db db' := by
  obtain ⟨keywords, db₁, h₁, h⟩ := Tx.bind_eq_ok.mp h
  obtain ⟨-, h₁⟩ := statement_eq_ok.mp h₁
  cases h₁
  obtain ⟨categories, db₂, h₂, h⟩ := Tx.bind_eq_ok.mp h
  obtain ⟨-, h₂⟩ := statement_eq_ok.mp h₂
  cases h₂
  obtain ⟨_, db₃, h₃, h⟩ := Tx.bind_eq_ok.mp h
  obtain ⟨_, db₄, h₄, h⟩ := Tx.bind_eq_ok.mp h
  obtain ⟨_, db₅, h₅, h⟩ := Tx.bind_eq_ok.mp h
  have hp₃ := prepared_addLabels h₃ hc
  have hp₄ := prepared_addLabels h₄ (ids_subset hp₃.named hc)
  exact ((hp₃.trans hp₄).trans (prepared_pruneLabels h₅)).trans (prepared_pruneLabels h)

end Prepared

/-! ## The version, its dependencies and its features -/

/-- The row of a dependency of the version `versionId`, on a crate that has its name. -/
def Recorded (db : Db) (versionId : ℕ) (r : ℕ × DependencyRow) (d : PublishDependency) : Prop :=
  (r.2.dependency, d.name, d.registry.getD "") ∈ db.named ∧
    r.2 = dependencyRow versionId r.2.dependency d

/-- One version of one crate is there besides what was, with its features and dependencies. -/
structure Released (db : Db) (p : Publish) (ck : Checksum) (crate versionId : ℕ) (db' : Db) :
    Prop where
  named : db.named <+: db'.named
  crate_named : (crate, p.name, "") ∈ db'.named
  labels : db.LabelsLinked → db'.LabelsLinked
  versions : db'.crateVersions.rows = db.crateVersions.rows ++
    [(versionId, ⟨crate, p.vers.display, hexEncode ck, false, p.links⟩)]
  dependencies : ∃ rows, db'.dependencies.rows = db.dependencies.rows ++ rows ∧
    List.Forall₂ (Recorded db' versionId) rows p.deps
  features : ∃ rows, db'.features.rows = db.features.rows ++ rows ∧
    rows.map Prod.snd = p.features.iter.map fun e => ⟨versionId, e.1, e.2⟩

section Release

variable {io : Io} {db db' : Db} {p : Publish} {ck : Checksum} {crate versionId : ℕ}

theorem insertVersion_eq_ok (h : insertVersion io crate p ck db = (.ok versionId, db')) :
    (∀ v ∈ db.crateVersions.rows, ¬ (v.2.crate = crate ∧ v.2.version = p.vers.display)) ∧
    ∃ t, db' = { db with crateVersions := t } ∧ t.rows = db.crateVersions.rows ++
      [(versionId, ⟨crate, p.vers.display, hexEncode ck, false, p.links⟩)] := by
  unfold insertVersion at h
  simp only at h
  by_cases hio : io.fails (.insertVersion p.vers.display p.links) = true
  · rw [if_pos hio] at h
    cases h
  rw [if_neg hio] at h
  by_cases hkey : (crate, p.vers.display) ∈
      db.crateVersions.rows.map fun r => (r.2.crate, r.2.version)
  · rw [Table.insert_of_mem hkey] at h
    cases h
  · rw [Table.insert_of_notMem hkey] at h
    cases h
    refine ⟨fun v hv hk => hkey ?_, _, rfl, rfl⟩
    exact List.mem_map.mpr ⟨v, hv, Prod.ext hk.1 hk.2⟩

theorem Recorded.mono {r : ℕ × DependencyRow} {d : PublishDependency}
    (h : Recorded db versionId r d) (hsub : db.named <+: db'.named) :
    Recorded db' versionId r d :=
  ⟨hsub.subset h.1, h.2⟩

/-- The step of the loop over the dependencies. -/
theorem insertDependency_spec (versionId : ℕ) (d : PublishDependency) (db : Db) :
    ∃ r db', insertDependency versionId d db = ((), db') ∧ db.named <+: db'.named ∧
      (db.LabelsLinked → db'.LabelsLinked) ∧ db'.crateVersions = db.crateVersions ∧
      db'.features = db.features ∧ db'.dependencies.rows = db.dependencies.rows ++ [r] ∧
      Recorded db' versionId r d := by
  obtain ⟨c, t, ht, hp, hm⟩ := getOrInsert_named db d.name (d.registry.getD "")
  obtain ⟨t', hins, hrows⟩ := db.dependencies.insert_primary (dependencyRow versionId c.1 d)
  have hrun : insertDependency versionId d db =
      ((), { db with crates := t, dependencies := t' }) := by
    unfold insertDependency
    simp only [ht, hins]
  exact ⟨_, _, hrun, hp, (prepared_crates hp).labels, rfl, rfl, hrows, hm, rfl⟩

theorem insertDependencies_spec {deps : List PublishDependency}
    (h : Tx.each (fun d => statement io (.insertDependency d) (insertDependency versionId d)) deps
      db = (.ok (), db')) :
    db.named <+: db'.named ∧ (db.LabelsLinked → db'.LabelsLinked) ∧
      db'.crateVersions = db.crateVersions ∧ db'.features = db.features ∧
      ∃ rows, db'.dependencies.rows = db.dependencies.rows ++ rows ∧
        List.Forall₂ (Recorded db' versionId) rows deps := by
  induction deps generalizing db with
  | nil =>
    obtain ⟨-, rfl⟩ := Tx.answer_eq_ok.mp h
    exact ⟨List.prefix_refl _, id, rfl, rfl, [], (List.append_nil _).symm, .nil⟩
  | cons d deps ih =>
    obtain ⟨db₁, h₁, h⟩ := Tx.each_cons_eq_ok.mp h
    obtain ⟨-, h₁⟩ := statement_eq_ok.mp h₁
    obtain ⟨r, db₂, h₂, hn, hl, hv, hf, hd, hr⟩ := insertDependency_spec versionId d db
    cases h₁.symm.trans h₂
    obtain ⟨hn', hl', hv', hf', rows, hd', hrs⟩ := ih h
    refine ⟨hn.trans hn', fun hlinked => hl' (hl hlinked), hv'.trans hv, hf'.trans hf, r :: rows,
      ?_, .cons (hr.mono hn') hrs⟩
    rw [hd', hd, List.append_assoc, List.singleton_append]

theorem insertFeature_eq_ok {e : String × List String}
    (h : insertFeature io versionId e db = (.ok (), db')) :
    ∃ r t, db' = { db with features := t } ∧ t.rows = db.features.rows ++ [r] ∧
      r.2 = ⟨versionId, e.1, e.2⟩ := by
  unfold insertFeature at h
  simp only at h
  by_cases hio : io.fails (.insertFeature e.1 e.2) = true
  · rw [if_pos hio] at h
    cases h
  rw [if_neg hio] at h
  by_cases hkey : (versionId, e.1) ∈ db.features.rows.map fun r => (r.2.crateVersion, r.2.name)
  · rw [Table.insert_of_mem hkey] at h
    cases h
  · rw [Table.insert_of_notMem hkey] at h
    cases h
    exact ⟨_, _, rfl, rfl, rfl⟩

theorem insertFeatures_spec {features : List (String × List String)}
    (h : Tx.each (insertFeature io versionId) features db = (.ok (), db')) :
    ∃ rows t, db' = { db with features := t } ∧ t.rows = db.features.rows ++ rows ∧
      rows.map Prod.snd = features.map fun e => ⟨versionId, e.1, e.2⟩ := by
  induction features generalizing db with
  | nil =>
    obtain ⟨-, rfl⟩ := Tx.answer_eq_ok.mp h
    exact ⟨[], db.features, rfl, (List.append_nil _).symm, rfl⟩
  | cons e features ih =>
    obtain ⟨db₁, h₁, h⟩ := Tx.each_cons_eq_ok.mp h
    obtain ⟨r, t, rfl, ht, hr⟩ := insertFeature_eq_ok h₁
    obtain ⟨rows, t', rfl, ht', hrs⟩ := ih h
    refine ⟨r :: rows, t', rfl, ?_, ?_⟩
    · rw [ht', ht, List.append_assoc, List.singleton_append]
    · rw [List.map_cons, List.map_cons, hr, hrs]

/-- **A transaction that goes through.** -/
theorem released_of_insertRelease (h : insertRelease io p ck db = (.ok (), db')) :
    ∃ crate versionId, Released db p ck crate versionId db' := by
  obtain ⟨c, db₁, h₁, h⟩ := Tx.bind_eq_ok.mp h
  obtain ⟨_, db₂, h₂, h⟩ := Tx.bind_eq_ok.mp h
  obtain ⟨_, db₃, h₃, h⟩ := Tx.bind_eq_ok.mp h
  obtain ⟨versionId, db₄, h₄, h⟩ := Tx.bind_eq_ok.mp h
  obtain ⟨_, db₅, h₅, h₆⟩ := Tx.bind_eq_ok.mp h
  obtain ⟨-, h₁⟩ := statement_eq_ok.mp h₁
  obtain ⟨hp₁, hcrate⟩ := prepared_getOrInsertCrate h₁
  have hp₂ := prepared_refreshCrate h₂
  have hids := ids_subset hp₂.named (mem_ids.mpr ⟨_, _, hcrate⟩)
  have hp₃ := prepared_refreshLabels h₃ hids
  have hp := (hp₁.trans hp₂).trans hp₃
  obtain ⟨-, t, rfl, ht⟩ := insertVersion_eq_ok h₄
  obtain ⟨hn₅, hl₅, hv₅, hf₅, rows, hd₅, hrs⟩ := insertDependencies_spec h₅
  obtain ⟨frows, t', rfl, ht', hfs⟩ := insertFeatures_spec h₆
  refine ⟨c.1, versionId, hp.named.trans hn₅, ?_, fun hl => hl₅ (hp.labels hl), ?_, ⟨rows, ?_, hrs⟩,
    ⟨frows, ?_, hfs⟩⟩
  · exact ((hp₂.named.trans hp₃.named).trans hn₅).subset hcrate
  · change db₅.crateVersions.rows = _
    rw [hv₅, ht, hp.versions]
  · change db₅.dependencies.rows = _
    rw [hd₅, hp.dependencies]
  · change t'.rows = _
    rw [ht', hf₅, hp.features]

end Release

end PgIndex

end Freighter
