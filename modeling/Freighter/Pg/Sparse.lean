import Freighter.FsIndex.Provider
import Freighter.Pg.Consistent

/-!
# What is published is served, but for renamed dependencies

* `stored p ck`: the entry that a committed publish adds; **`getSparseEntry_released`**: it comes
  behind the entries that were there, which do not change;
* the names of a renamed dependency come back exchanged (`exchanged`): `name` is the original name
  and `package` the name in the manifest;
* **`serves_iff`**: when the entry is the one that was published.
-/

namespace Freighter

/-- The dependency with its two names exchanged, when it is renamed. -/
def PublishDependency.exchanged (d : PublishDependency) : PublishDependency :=
  match d.explicitNameInToml with
  | some renamed => { d with name := renamed, explicitNameInToml := some d.name }
  | none => d

/-- An empty registry is none. -/
def PublishDependency.dropEmptyRegistry (d : PublishDependency) : PublishDependency :=
  { d with registry := d.registry.filter (· ≠ "") }

theorem PublishDependency.exchanged_of_not_renamed {d : PublishDependency}
    (h : d.explicitNameInToml = none) : d.exchanged = d := by
  unfold PublishDependency.exchanged
  rw [h]

theorem PublishDependency.toDependency_injective :
    Function.Injective PublishDependency.toDependency :=
  Function.LeftInverse.injective PublishDependency.toPublishDependency_toDependency

namespace PgIndex

/-- The entry of a committed publish, as it is served. -/
def stored (p : Publish) (ck : Checksum) : CrateVersion :=
  { FsIndex.release p ck with
    deps := p.deps.map fun d => d.dropEmptyRegistry.exchanged.toDependency }

variable (S : Semver)

/-! ## Reading rows -/

theorem mapM_eq_ok {α β ε : Type} {f : α → Except ε β} {l : List α} {bs : List β} :
    l.mapM f = .ok bs ↔ List.Forall₂ (fun a b => f a = .ok b) l bs := by
  induction l generalizing bs with
  | nil => cases bs <;> simp [pure, Except.pure]
  | cons a l ih =>
    rw [List.mapM_cons]
    cases ha : f a with
    | error e => cases bs <;> simp [ha, bind, Except.bind]
    | ok b =>
      cases hl : l.mapM f with
      | error e => cases bs <;> simp [ha, bind, Except.bind, ← ih, hl]
      | ok bs' => cases bs <;> simp [ha, bind, Except.bind, pure, Except.pure, ← ih, hl]

theorem mapM_ok {α β ε : Type} {f : α → Except ε β} {l : List α}
    (h : ∀ a ∈ l, ∃ b, f a = .ok b) : ∃ bs, l.mapM f = .ok bs := by
  induction l with
  | nil => exact ⟨[], rfl⟩
  | cons a l ih =>
    obtain ⟨b, hb⟩ := h a List.mem_cons_self
    obtain ⟨bs, hbs⟩ := ih fun a' ha' => h a' (List.mem_cons_of_mem _ ha')
    exact ⟨b :: bs, mapM_eq_ok.mpr (.cons hb (mapM_eq_ok.mp hbs))⟩

theorem mapM_congr {α β ε : Type} {f g : α → Except ε β} {l : List α}
    (h : ∀ a ∈ l, f a = g a) : l.mapM f = l.mapM g := by
  induction l with
  | nil => rfl
  | cons a l ih =>
    rw [List.mapM_cons, List.mapM_cons, h a List.mem_cons_self,
      ih fun a' ha' => h a' (List.mem_cons_of_mem _ ha')]

theorem exists_of_mem_mapM {α β ε : Type} {f : α → Except ε β} {l : List α} {bs : List β}
    (h : l.mapM f = .ok bs) {b : β} (hb : b ∈ bs) : ∃ a ∈ l, f a = .ok b := by
  have hall := mapM_eq_ok.mp h
  induction hall with
  | nil => cases hb
  | @cons a c l cs hac hrest ih =>
    rcases List.mem_cons.mp hb with rfl | hb
    · exact ⟨a, List.mem_cons_self, hac⟩
    · obtain ⟨a', ha', hf⟩ := ih (mapM_eq_ok.mpr hrest) hb
      exact ⟨a', List.mem_cons_of_mem _ ha', hf⟩

section Rows

variable {S} {db : Db} {id : ℕ} {name registry : String}

/-- The join with the crate of a row. -/
theorem join_crate {α : Type} (x : α) (h : (id, name, registry) ∈ db.named) :
    ((db.crates.rows.filter (·.1 = id)).map fun c => (x, c.2.name, c.2.registry)) =
      [(x, name, registry)] := by
  obtain ⟨c, hc, rfl, rfl, rfl⟩ := mem_named.mp h
  rw [Table.filter_id hc]
  rfl

theorem getSparseEntry_of_named (h : (id, name, "") ∈ db.named) :
    getSparseEntry S {} db name =
      some ((db.crateVersions.rows.filter (·.2.crate = id)).mapM (readEntry S {} db name)) := by
  obtain ⟨c, hc, rfl, hn, hr⟩ := mem_named.mp h
  have hfilter : (db.crates.rows.filter fun c => c.2.name = name && c.2.registry = "") = [c] := by
    have hkey := Table.filter_key hc
    rw [hn, hr] at hkey
    rw [← hkey]
    refine List.filter_congr fun b _ => ?_
    simp [Prod.ext_iff]
  simp [getSparseEntry, hfilter]

theorem getSparseEntry_of_not_named (h : ∀ id, (id, name, "") ∉ db.named) :
    getSparseEntry S {} db name = some (.error .notFound) := by
  have hfilter : (db.crates.rows.filter fun c => c.2.name = name && c.2.registry = "") = [] := by
    rw [List.filter_eq_nil_iff]
    intro c hc hsel
    simp only [Bool.and_eq_true, decide_eq_true_eq] at hsel
    exact h c.1 (mem_named.mpr ⟨c, hc, rfl, hsel.1, hsel.2⟩)
  simp [getSparseEntry, hfilter]

variable (S name) in
/-- Every row of a version of a consistent database is served. -/
theorem readEntry_ok (hc : Consistent db) {v : ℕ × VersionRow}
    (hv : v ∈ db.crateVersions.rows) :
    ∃ e, readEntry S {} db name v = .ok e ∧ e.vers.display = v.2.version := by
  obtain ⟨vers, ck, hvers, hck⟩ := hc.texts v hv
  have hdeps : ∃ deps, (db.getDependencies v.1).mapM (readDependency S) = .ok deps := by
    refine mapM_ok fun row hrow => ?_
    obtain ⟨d, hd, hm⟩ := List.mem_flatMap.mp hrow
    obtain ⟨c, -, rfl⟩ := List.mem_map.mp hm
    obtain ⟨-, -, req, hreq⟩ := hc.dependencies d (List.mem_of_mem_filter hd)
    unfold readDependency
    simp only [hreq, S.parseReq_display]
    exact ⟨_, rfl⟩
  obtain ⟨deps, hdeps⟩ := hdeps
  unfold readEntry
  simp only [Bool.or_self, Bool.false_eq_true, if_false, hdeps, hvers, hck, fromHex_hexEncode,
    S.parseVersion_display]
  exact ⟨_, rfl, rfl⟩

end Rows

/-! ## The rows of the new version -/

section Released

variable {S} {db db' : Db} {p : Publish} {ck : Checksum} {crate versionId : ℕ} {name : String}

/-- The rows of an earlier version are joined with the same crates. -/
theorem getDependencies_frame (h : Released db p ck crate versionId db') (hc : Consistent db)
    {id : ℕ} (hid : id ∈ db.crateVersions.ids) :
    db'.getDependencies id = db.getDependencies id := by
  obtain ⟨rows, hrows, hrec⟩ := h.dependencies
  have hne : versionId ≠ id := fun e => h.fresh (e ▸ hid)
  have hnew : rows.filter (·.2.dependent = id) = [] := by
    rw [List.filter_eq_nil_iff]
    intro r hr hsel
    obtain ⟨d, -, hrow⟩ := recorded_of_forall₂ hrec hr
    rw [hrow] at hsel
    exact hne (of_decide_eq_true hsel)
  unfold Db.getDependencies
  rw [hrows, List.filter_append, hnew, List.append_nil]
  refine List.flatMap_congr fun d hd => ?_
  obtain ⟨-, hdep, -⟩ := hc.dependencies d (List.mem_of_mem_filter hd)
  obtain ⟨n, r, hn⟩ := mem_ids.mp hdep
  rw [join_crate d.2 hn, join_crate d.2 (h.named.subset hn)]

/-- The row of a dependency reads as the dependency with its names exchanged. -/
theorem readDependency_dependencyRow (versionId dependency : ℕ) (d : PublishDependency) :
    readDependency S (dependencyRow versionId dependency d, d.name, d.registry.getD "") =
      .ok d.dropEmptyRegistry.exchanged.toDependency := by
  obtain ⟨n, r, f, o, df, t, k, reg, e⟩ := d
  unfold readDependency dependencyRow
  simp only [S.parseReq_display]
  cases e <;> cases reg <;> simp [PublishDependency.dropEmptyRegistry,
    PublishDependency.exchanged, PublishDependency.toDependency,
    PublishDependency.aliasAndPackage, Option.filter]

theorem readDependencies_recorded {rows : List (ℕ × DependencyRow)}
    {deps : List PublishDependency} (h : List.Forall₂ (Recorded db' versionId) rows deps) :
    List.Forall₂ (fun row b => readDependency S row = .ok b)
      (rows.flatMap fun d => (db'.crates.rows.filter (·.1 = d.2.dependency)).map fun c =>
        (d.2, c.2.name, c.2.registry))
      (deps.map fun d => d.dropEmptyRegistry.exchanged.toDependency) := by
  induction h with
  | nil => exact .nil
  | @cons r d rows deps hd _ ih =>
    rw [List.flatMap_cons, List.map_cons, join_crate r.2 hd.1, List.singleton_append]
    refine .cons ?_ ih
    rw [hd.2]
    exact readDependency_dependencyRow versionId _ d

theorem getDependencies_new (h : Released db p ck crate versionId db') (hc : Consistent db) :
    (db'.getDependencies versionId).mapM (readDependency S) =
      .ok (p.deps.map fun d => d.dropEmptyRegistry.exchanged.toDependency) := by
  obtain ⟨rows, hrows, hrec⟩ := h.dependencies
  have hold : db.dependencies.rows.filter (·.2.dependent = versionId) = [] := by
    rw [List.filter_eq_nil_iff]
    intro d hd hsel
    have hdependent := (hc.dependencies d hd).1
    rw [of_decide_eq_true hsel] at hdependent
    exact h.fresh hdependent
  have hall : rows.filter (·.2.dependent = versionId) = rows := by
    rw [List.filter_eq_self]
    intro r hr
    obtain ⟨d, -, hrow⟩ := recorded_of_forall₂ hrec hr
    rw [hrow]
    exact decide_eq_true rfl
  unfold Db.getDependencies
  rw [hrows, List.filter_append, hold, hall, List.nil_append, mapM_eq_ok]
  exact readDependencies_recorded hrec

theorem getFeatures_frame (h : Released db p ck crate versionId db') {id : ℕ}
    (hid : id ∈ db.crateVersions.ids) : db'.getFeatures id = db.getFeatures id := by
  obtain ⟨rows, hrows, hmap⟩ := h.features
  have hnew : rows.filter (·.2.crateVersion = id) = [] := by
    rw [List.filter_eq_nil_iff]
    intro f hf hsel
    rw [← of_decide_eq_true hsel, feature_of_map hmap hf] at hid
    exact h.fresh hid
  unfold Db.getFeatures
  rw [hrows, List.filter_append, hnew, List.append_nil]

theorem getFeatures_new (h : Released db p ck crate versionId db') (hc : Consistent db) :
    db'.getFeatures versionId = p.features := by
  obtain ⟨rows, hrows, hmap⟩ := h.features
  have hold : db.features.rows.filter (·.2.crateVersion = versionId) = [] := by
    rw [List.filter_eq_nil_iff]
    intro f hf hsel
    have hversion := hc.features f hf
    rw [of_decide_eq_true hsel] at hversion
    exact h.fresh hversion
  have hall : rows.filter (·.2.crateVersion = versionId) = rows := by
    rw [List.filter_eq_self]
    intro f hf
    exact decide_eq_true (feature_of_map hmap hf)
  have hread : rows.map (fun f => (f.2.name, f.2.values)) = p.features.iter := by
    have := congrArg (List.map fun f : FeatureRow => (f.name, f.values)) hmap
    simpa [Function.comp_def] using this
  unfold Db.getFeatures
  rw [hrows, List.filter_append, hold, hall, List.nil_append, hread, HashMap.collect_iter]

/-- An earlier version is served as it was. -/
theorem readEntry_frame (h : Released db p ck crate versionId db') (hc : Consistent db)
    {v : ℕ × VersionRow} (hv : v ∈ db.crateVersions.rows) :
    readEntry S {} db' name v = readEntry S {} db name v := by
  have hid : v.1 ∈ db.crateVersions.ids := List.mem_map_of_mem hv
  unfold readEntry
  rw [getDependencies_frame h hc hid, getFeatures_frame h hid]

theorem readEntry_new (h : Released db p ck crate versionId db') (hc : Consistent db) :
    readEntry S {} db' p.name
      (versionId, ⟨crate, p.vers.display, hexEncode ck, false, p.links⟩) = .ok (stored p ck) := by
  unfold readEntry
  simp only [Bool.or_self, Bool.false_eq_true, if_false, getDependencies_new h hc,
    fromHex_hexEncode, S.parseVersion_display, getFeatures_new h hc]
  rfl

end Released

/-! ## The entries of a crate -/

/-- The entries that are served when nothing fails; a crate that is not there has none. -/
def served (db : Db) (name : String) : List CrateVersion :=
  match getSparseEntry S {} db name with
  | some (.ok entries) => entries
  | _ => []

section Served

variable {S} {db db' : Db} {p : Publish} {ck : Checksum} {crate versionId : ℕ} {name : String}

/-- A version is of no other crate than the one that its row names. -/
theorem rows_eq_nil (hc : Consistent db) (hsub : db.named <+: db'.named) {id : ℕ}
    (hid : (id, name, "") ∈ db'.named) (h : (id, name, "") ∉ db.named) :
    db.crateVersions.rows.filter (·.2.crate = id) = [] := by
  rw [List.filter_eq_nil_iff]
  intro v hv hsel
  obtain ⟨n, hn⟩ := hc.versions v hv
  rw [of_decide_eq_true hsel] at hn
  obtain ⟨rfl, -⟩ := eq_of_named_id hid (hsub.subset hn)
  exact h hn

theorem served_eq (hc : Consistent db) (hsub : db.named <+: db'.named) {id : ℕ}
    (hid : (id, name, "") ∈ db'.named) :
    (db.crateVersions.rows.filter (·.2.crate = id)).mapM (readEntry S {} db name) =
      .ok (served S db name) := by
  by_cases hn : (id, name, "") ∈ db.named
  · obtain ⟨entries, he⟩ := mapM_ok (f := readEntry S {} db name)
      (l := db.crateVersions.rows.filter (·.2.crate = id)) fun v hv => by
        obtain ⟨e, he, -⟩ := readEntry_ok S name hc (List.mem_of_mem_filter hv)
        exact ⟨e, he⟩
    unfold served
    rw [getSparseEntry_of_named hn, he]
  · have hnone : ∀ id', (id', name, "") ∉ db.named := by
      intro id' hid'
      obtain rfl := eq_of_named_name hid (hsub.subset hid')
      exact hn hid'
    unfold served
    rw [rows_eq_nil hc hsub hid hn, getSparseEntry_of_not_named hnone]
    rfl

theorem Released.mapM_frame (h : Released db p ck crate versionId db') (hc : Consistent db)
    {rows : List (ℕ × VersionRow)} (hrows : ∀ v ∈ rows, v ∈ db.crateVersions.rows)
    {entries : List CrateVersion} (he : rows.mapM (readEntry S {} db name) = .ok entries) :
    rows.mapM (readEntry S {} db' name) = .ok entries := by
  rw [← he]
  exact mapM_congr fun v hv => readEntry_frame h hc (hrows v hv)

/-- **A committed publish adds one entry**, behind those that were there. -/
theorem getSparseEntry_released (h : Released db p ck crate versionId db') (hc : Consistent db) :
    getSparseEntry S {} db' p.name = some (.ok (served S db p.name ++ [stored p ck])) := by
  have hold := h.mapM_frame hc (fun v hv => List.mem_of_mem_filter hv)
    (served_eq (S := S) hc h.named h.crate_named)
  rw [getSparseEntry_of_named h.crate_named, h.versions, List.filter_append]
  have hnew : [(versionId,
      (⟨crate, p.vers.display, hexEncode ck, false, p.links⟩ : VersionRow))].filter
        (·.2.crate = crate) =
      [(versionId, ⟨crate, p.vers.display, hexEncode ck, false, p.links⟩)] := by
    simp
  rw [hnew]
  congr 1
  rw [mapM_eq_ok] at hold ⊢
  exact List.rel_append hold (.cons (readEntry_new h hc) .nil)

/-- No earlier entry is of the version. -/
theorem vers_ne_of_served (h : Released db p ck crate versionId db') (hc : Consistent db)
    {e : CrateVersion} (he : e ∈ served S db p.name) : e.vers ≠ p.vers := by
  rintro hvers
  obtain ⟨v, hv, hread⟩ := exists_of_mem_mapM
    (served_eq (S := S) hc h.named h.crate_named) he
  obtain ⟨hv, hcrate⟩ := List.mem_filter.mp hv
  obtain ⟨e', hread', hdisplay⟩ := readEntry_ok S p.name hc hv
  cases hread.symm.trans hread'
  have hnew : (versionId, (⟨crate, p.vers.display, hexEncode ck, false, p.links⟩ : VersionRow)) ∈
      db'.crateVersions.rows := by
    rw [h.versions]
    exact List.mem_append_right _ (List.mem_singleton_self _)
  have hmem : v ∈ db'.crateVersions.rows := by
    rw [h.versions]
    exact List.mem_append_left _ hv
  have hkey := Table.eq_of_key hmem hnew
    (Prod.ext (of_decide_eq_true hcrate) (hdisplay.symm.trans (congrArg Version.display hvers)))
  apply h.fresh
  have hid : v.1 = versionId := congrArg Prod.fst hkey
  rw [← hid]
  exact List.mem_map_of_mem hv

/-- The entries of other crates do not change. -/
theorem served_other (h : Released db p ck crate versionId db') (hc : Consistent db)
    (hne : name ≠ p.name) : served S db' name = served S db name := by
  by_cases hn : ∃ id, (id, name, "") ∈ db'.named
  · obtain ⟨id, hid⟩ := hn
    have hcrate : crate ≠ id := by
      rintro rfl
      exact hne (eq_of_named_id hid h.crate_named).1
    have hrows : db'.crateVersions.rows.filter (·.2.crate = id) =
        db.crateVersions.rows.filter (·.2.crate = id) := by
      rw [h.versions, List.filter_append, List.filter_cons_of_neg (by simpa using hcrate),
        List.filter_nil, List.append_nil]
    have hread := h.mapM_frame hc (fun v hv => List.mem_of_mem_filter hv)
      (served_eq (S := S) hc h.named hid)
    conv_lhs => unfold served
    rw [getSparseEntry_of_named hid, hrows, hread]
  · have hnone : ∀ id, (id, name, "") ∉ db'.named := fun id hid => hn ⟨id, hid⟩
    have hnone' : ∀ id, (id, name, "") ∉ db.named := fun id hid =>
      hnone id (h.named.subset hid)
    unfold served
    rw [getSparseEntry_of_not_named hnone, getSparseEntry_of_not_named hnone']

end Served

/-! ## What was published -/

/-- After a publish of `p` took the database from `before` to `after`, its crate has one entry of
the version, which is what was published, dependencies up to order and in their index form; and all
other entries are as they were. -/
structure Serves (p : Publish) (ck : Checksum) (before after : Db) : Prop where
  answers : ∃ entries, getSparseEntry S {} after p.name = some (.ok entries)
  release : ∃ v, (served S after p.name).filter (·.vers = p.vers) = [v] ∧ v.name = p.name ∧
    v.cksum = ck ∧ v.yanked = false ∧ v.links = p.links ∧
    (∀ k, v.features.lookup k = p.features.lookup k) ∧
    v.deps.Perm (p.deps.map fun d => d.dropEmptyRegistry.toDependency)
  earlier : ((served S after p.name).filter (·.vers ≠ p.vers)).Perm (served S before p.name)
  others : ∀ name ≠ p.name, (served S after name).Perm (served S before name)

/-- Exchanging the two names of each renamed dependency changes at most the order. -/
def Exchangeable (deps : List PublishDependency) : Prop :=
  ((deps.map PublishDependency.dropEmptyRegistry).map PublishDependency.exchanged).Perm
    (deps.map PublishDependency.dropEmptyRegistry)

instance (deps : List PublishDependency) : Decidable (Exchangeable deps) :=
  inferInstanceAs (Decidable (List.Perm _ _))

theorem exchangeable_of_not_renamed {deps : List PublishDependency}
    (h : ∀ d ∈ deps, d.explicitNameInToml = none) : Exchangeable deps := by
  unfold Exchangeable
  rw [List.map_map]
  refine List.Perm.of_eq (List.map_congr_left fun d hd => ?_)
  exact PublishDependency.exchanged_of_not_renamed (d := d.dropEmptyRegistry) (h d hd)

section Serves

variable {S} {db db' : Db} {p : Publish} {ck : Checksum} {crate versionId : ℕ}

theorem stored_deps_perm :
    (stored p ck).deps.Perm (p.deps.map fun d => d.dropEmptyRegistry.toDependency) ↔
      Exchangeable p.deps := by
  have hdeps : (stored p ck).deps = ((p.deps.map PublishDependency.dropEmptyRegistry).map
      PublishDependency.exchanged).map PublishDependency.toDependency := by
    simp [stored, Function.comp_def]
  have hindex : (p.deps.map fun d => d.dropEmptyRegistry.toDependency) =
      (p.deps.map PublishDependency.dropEmptyRegistry).map PublishDependency.toDependency := by
    simp [Function.comp_def]
  rw [hdeps, hindex]
  exact List.map_perm_map_iff PublishDependency.toDependency_injective

/-- **When a committed publish is served as it was published.** -/
theorem serves_iff (h : Released db p ck crate versionId db') (hc : Consistent db) :
    Serves S p ck db db' ↔ Exchangeable p.deps := by
  have hserved : served S db' p.name = served S db p.name ++ [stored p ck] := by
    conv_lhs => unfold served
    rw [getSparseEntry_released h hc]
  have hold : ∀ e ∈ served S db p.name, e.vers ≠ p.vers := fun e => vers_ne_of_served h hc
  have hvers : (stored p ck).vers = p.vers := rfl
  have hnew : (served S db' p.name).filter (·.vers = p.vers) = [stored p ck] := by
    rw [hserved, List.filter_append,
      List.filter_eq_nil_iff.mpr fun e he => by simpa using hold e he, List.nil_append,
      List.filter_cons_of_pos (by simpa using hvers), List.filter_nil]
  have hrest : (served S db' p.name).filter (·.vers ≠ p.vers) = served S db p.name := by
    rw [hserved, List.filter_append, List.filter_eq_self.mpr fun e he => by simpa using hold e he,
      List.filter_cons_of_neg (by simpa using hvers), List.filter_nil, List.append_nil]
  constructor
  · rintro ⟨-, ⟨v, hv, -, -, -, -, -, hdeps⟩, -, -⟩
    rw [hnew] at hv
    cases hv
    exact stored_deps_perm.mp hdeps
  · intro hsym
    refine ⟨⟨_, getSparseEntry_released h hc⟩, ⟨stored p ck, hnew, rfl, rfl, rfl, rfl,
      fun _ => rfl, stored_deps_perm.mpr hsym⟩, ?_, fun name hne => ?_⟩
    · rw [hrest]
    · rw [served_other h hc hne]

end Serves

/-- A publish into a database that commits, as the empty one. -/
theorem released_of_publish {ω : Type} {io : Io} {db : Db} {p : Publish} {ck : Checksum}
    {endStep : ω → Except IndexError Unit × ω} {w : ω}
    (h : (publish io db p ck endStep w).1 = .ok .noWarnings) :
    ∃ crate versionId, Released db p ck crate versionId (publish io db p ck endStep w).2.1 := by
  rcases publish_cases io db p ck endStep w with ⟨-, hr⟩ | ⟨⟨e, he⟩, -⟩
  · exact hr
  · rw [h] at he
    cases he

/-- **What is published is served, but for renamed dependencies.** In every reachable database, a
publish that commits is served as it was published, and leaves the other entries as they were, iff
exchanging the names of the renamed dependencies changes at most their order. -/
theorem published_is_served (S : Semver) (calls : List Call) {ω : Type} (io : Io) (p : Publish)
    (ck : Checksum) (endStep : ω → Except IndexError Unit × ω) (w : ω)
    (h : (publish io (Run.final step Db.empty calls) p ck endStep w).1 = .ok .noWarnings) :
    Serves S p ck (Run.final step Db.empty calls)
        (publish io (Run.final step Db.empty calls) p ck endStep w).2.1 ↔
      Exchangeable p.deps := by
  obtain ⟨crate, versionId, hr⟩ := released_of_publish h
  exact serves_iff hr (consistent_final calls)

/-- `foo`, which calls its dependency `serde_json` by the name `json`. -/
def fooRenaming : Publish :=
  { foo with
    deps :=
      [{ name := "serde_json"
         versionReq := VersionReq.caret 1 2 0
         features := []
         optional := false
         defaultFeatures := true
         target := none
         kind := .normal
         registry := none
         explicitNameInToml := some "json" }] }

/-- The renamed dependency is served as a crate `serde_json` that is the package `json`. -/
theorem renamed_is_not_served :
    (publish {} Db.empty fooRenaming (abcHash []) (fun w : Unit => (.ok (), w)) ()).1 =
        .ok .noWarnings ∧
      ¬ Serves Semver.canonical fooRenaming (abcHash []) Db.empty
        (publish {} Db.empty fooRenaming (abcHash []) (fun w : Unit => (.ok (), w)) ()).2.1 := by
  have hok : (publish {} Db.empty fooRenaming (abcHash []) (fun w : Unit => (.ok (), w)) ()).1 =
      .ok .noWarnings := by decide +kernel
  refine ⟨hok, ?_⟩
  obtain ⟨crate, versionId, hr⟩ := released_of_publish hok
  rw [serves_iff hr consistent_empty]
  decide

/-- The next `foo`, which has two dependencies by their own names. -/
def fooNext : Publish :=
  { foo with
    vers := Version.new 0 1 0
    deps :=
      [{ name := "serde_json"
         versionReq := VersionReq.caret 1 2 0
         features := ["std"]
         optional := false
         defaultFeatures := true
         target := none
         kind := .normal
         registry := none
         explicitNameInToml := none },
       { name := "log"
         versionReq := VersionReq.caret 0 4 0
         features := []
         optional := true
         defaultFeatures := false
         target := some "cfg(unix)"
         kind := .dev
         registry := some ""
         explicitNameInToml := none }] }

/-- The publish of the `foo` whose dependency is renamed. -/
def fooFirst : Call := ⟨{}, .ok (), .publish fooRenaming (abcHash [])⟩

/-- The next one is served after that. -/
theorem published_is_served_next :
    (step Db.empty fooFirst).1 = some (.ok .done) ∧
      Serves Semver.canonical fooNext (abcHash [97]) (Run.final step Db.empty [fooFirst])
        (publish {} (Run.final step Db.empty [fooFirst]) fooNext (abcHash [97])
          (fun w : Unit => (.ok (), w)) ()).2.1 := by
  have hok : (publish {} (Run.final step Db.empty [fooFirst]) fooNext (abcHash [97])
      (fun w : Unit => (.ok (), w)) ()).1 = .ok .noWarnings := by decide +kernel
  refine ⟨by decide +kernel, ?_⟩
  exact (published_is_served Semver.canonical [fooFirst] {} fooNext (abcHash [97])
    (fun w : Unit => (.ok (), w)) () hok).mpr (by decide)

end PgIndex

end Freighter
