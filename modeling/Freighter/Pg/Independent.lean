import Freighter.Pg.Concurrent
import Freighter.Pg.Consistent
import Freighter.Pg.Crates

/-!
# Independent publishes

Two publishes of different crates at a time, in any order of their statements.

* `Independent`: what both need is in the database, the versions are new, and not each of the crates
  depends on the other;
* `Inv`, `Rely`: what holds between statements, and what a statement of the other publish may do;
* one lemma for each statement, **`holds_transaction`** for the program;
* **`independent_commit`**: independent publishes both commit.
-/

namespace Freighter

namespace PgIndex

namespace Concurrent

open Versioned (ids withKey Keyed Owned Grows Leaves Numbered)

/-- The keywords or the categories of a publish. -/
def wanted : Label → Publish → List String
  | .keyword, p => p.keywords
  | .category, p => p.categories

/-- The crates that a publish depends on. -/
def dependencyKeys (p : Publish) : List (String × String) :=
  p.deps.map fun d => (d.name, d.registry.getD "")

/-- Two publishes that do not get in each other's way. -/
structure Independent (waitsForUpdates : Bool) (db : Db) (p : Bool → Publish) : Prop where
  names : (p true).name ≠ (p false).name
  crates : ∀ k ∈ crateKeys (p true), k ∈ crateKeys (p false) →
    ∃ c ∈ db.crates.rows, crateKey c.2 = k
  labels : ∀ l, ∀ k ∈ wanted l (p true), k ∈ wanted l (p false) →
    ∃ r ∈ (db.labels l).names.rows, r.2 = k
  versions : ∀ i, db.versionRows (p i).name (p i).vers.display = []
  one_way : waitsForUpdates = true → ((p true).name, "") ∈ dependencyKeys (p false) →
    ((p false).name, "") ∉ dependencyKeys (p true)

section Independent

variable (db : Db) (p : Bool → Publish)

/-! ## The invariant -/

/-- The row `id` of `crates` is the crate that transaction `i` publishes. -/
def own (s : Tables) (i : Bool) (id : ℕ) : Prop :=
  ∃ r, s.crates.Has r ∧ r.1 = id ∧ crateKey r.2 = ((p i).name, "")

/-- The row `id` of `crate_versions` is one of the crate that transaction `i` publishes. -/
def ownVersion (s : Tables) (i : Bool) (id : ℕ) : Prop :=
  ∃ v, s.versions.Has v ∧ v.1 = id ∧ own p s i v.2.crate

abbrev KeyedCrates (t : Versioned CrateRow) : Prop :=
  Keyed crateKey (fun k => ∃ c ∈ db.crates.rows, crateKey c.2 = k) (fun i k => k ∈ crateKeys (p i))
    (fun i k => k = ((p i).name, "")) t

abbrev KeyedLabels (l : Label) (t : Versioned String) : Prop :=
  Keyed id (fun k => ∃ r ∈ (db.labels l).names.rows, r.2 = k) (fun i k => k ∈ wanted l (p i))
    (fun _ _ => False) t

abbrev GrowsCrates (i : Bool) (t u : Versioned CrateRow) : Prop :=
  Grows crateKey (fun i k => k ∈ crateKeys (p i)) i t u

abbrev GrowsLabels (l : Label) (i : Bool) (t u : Versioned String) : Prop :=
  Grows id (fun i k => k ∈ wanted l (p i)) i t u

/-- What holds between statements. -/
structure Inv (s : Tables) : Prop where
  crates : KeyedCrates db p s.crates
  names : ∀ c ∈ db.crates.rows, ∃ r, s.crates.Has r ∧ r.1 = c.1 ∧ crateKey r.2 = crateKey c.2
  labels : ∀ l, KeyedLabels db p l (s.labels l)
  crateLabels : ∀ l, Owned Prod.fst (db.labels l).ofCrates.rows (own p s) (s.ended · = true)
    (s.crateLabels l)
  versions : Owned VersionRow.crate db.crateVersions.rows (own p s) (s.ended · = true) s.versions
  features : Owned FeatureRow.crateVersion db.features.rows (ownVersion p s) (s.ended · = true)
    s.features
  next_le : db.crateVersions.next ≤ s.versions.next
  new : ∀ i, ∀ v ∈ (s.versions.changes i).puts, db.crateVersions.next ≤ v.1
  no_drops : ∀ i, (s.versions.changes i).drops = []
  ended : ∀ i, s.ended i = true → (s.crates.changes i).puts = []

/-- What a statement or the commit of the other transaction may do. -/
structure Rely (i : Bool) (s t : Tables) : Prop where
  crates : GrowsCrates p i s.crates t.crates
  labels : ∀ l, GrowsLabels p l i (s.labels l) (t.labels l)
  crateLabels : ∀ l, Leaves Prod.fst (own p t) i (s.crateLabels l) (t.crateLabels l)
  versions : t.versions.changes i = s.versions.changes i
  features : t.features.changes i = s.features.changes i
  ended : t.ended i = s.ended i

variable {db p} {i : Bool} {s t u : Tables}

theorem Rely.own (h : Rely p i s t) {j : Bool} {id : ℕ} (hown : own p s j id) : own p t j id :=
  h.crates.kept.named hown

theorem Rely.refl : Rely p i s s :=
  ⟨.refl i _, fun _ => .refl i _, fun _ => .of_rows rfl rfl, rfl, rfl, rfl⟩

theorem Rely.trans (h : Rely p i s t) (h' : Rely p i t u) : Rely p i s u where
  crates := h.crates.trans h'.crates
  labels l := (h.labels l).trans (h'.labels l)
  crateLabels l := (h.crateLabels l).trans (h'.crateLabels l) fun _ => h'.own
  versions := h'.versions.trans h.versions
  features := h'.features.trans h.features
  ended := h'.ended.trans h.ended

variable (db p) in
/-- What the two publishes rely on. One may have to wait for the other when it depends on its crate
and `on conflict do nothing` waits for an update. -/
def contract (waitsForUpdates : Bool) : Interleaving.Contract Tables where
  inv := Inv db p
  rely := Rely p
  may i := waitsForUpdates = true ∧ ((p !i).name, "") ∈ dependencyKeys (p i)
  ended i s := s.ended i = true
  refl _ _ := Rely.refl
  trans _ _ _ _ := Rely.trans
  ended_rely _ _ _ h hended := h.ended.trans hended

theorem inv_ofDb : Inv db p (Tables.ofDb db) where
  crates := Versioned.keyed_ofRows db.crates.nodup_ids db.crates.lt_next db.crates.nodup_keys
    fun _ => id
  names c hc := ⟨c, Or.inl hc, rfl, rfl⟩
  labels l := Versioned.keyed_ofRows (db.labels l).names.nodup_ids (db.labels l).names.lt_next
    (db.labels l).names.nodup_keys fun _ => id
  crateLabels l := Versioned.owned_ofRows (db.labels l).ofCrates.nodup_ids
    (db.labels l).ofCrates.lt_next
  versions := Versioned.owned_ofRows db.crateVersions.nodup_ids db.crateVersions.lt_next
  features := Versioned.owned_ofRows db.features.nodup_ids db.features.lt_next
  next_le := le_rfl
  new _ _ hv := by cases hv
  no_drops _ := rfl
  ended _ h := by cases h

/-! ## What a statement changes -/

theorem Rely.ownVersion (h : Rely p i s t)
    (hkept : Versioned.Keeps VersionRow.crate s.versions t.versions) {j : Bool} {id : ℕ}
    (hown : ownVersion p s j id) : ownVersion p t j id := by
  obtain ⟨v, hv, hid, hown⟩ := hown
  obtain ⟨v', hv', hid', hcrate⟩ := hkept v hv
  exact ⟨v', hv', hid'.trans hid, hcrate ▸ h.own hown⟩

theorem Inv.setCrates (h : Inv db p s) (hrun : s.ended i = false) {t : Versioned CrateRow}
    (ht : KeyedCrates db p t) (hgrows : GrowsCrates p (!i) s.crates t) :
    Inv db p { s with crates := t } ∧ Rely p (!i) s { s with crates := t } := by
  have hrely : Rely p (!i) s { s with crates := t } :=
    ⟨hgrows, fun _ => .refl _ _, fun _ => .of_rows rfl rfl, rfl, rfl, rfl⟩
  refine ⟨{ h with
    crates := ht
    names := fun c hc => hgrows.kept.named (h.names c hc)
    crateLabels := fun l => (h.crateLabels l).mono (fun _ _ => hrely.own) fun _ => id
    versions := h.versions.mono (fun _ _ => hrely.own) fun _ => id
    features := h.features.mono (fun _ _ => hrely.ownVersion (.of_has fun _ => id)) fun _ => id
    ended := fun j hj => ?_ }, hrely⟩
  by_cases hji : j = i
  · rw [hji] at hj
    exact absurd hj (Bool.eq_false_iff.mp hrun)
  · have hsame := hgrows.changes
    rw [← Bool.eq_not.mpr hji] at hsame
    rw [hsame]
    exact h.ended j hj

theorem Inv.setLabels (h : Inv db p s) {l : Label} {t : Versioned String}
    (ht : KeyedLabels db p l t) (hgrows : GrowsLabels p l (!i) (s.labels l) t) :
    Inv db p (s.setLabels l t) ∧ Rely p (!i) s (s.setLabels l t) := by
  refine ⟨{ h with labels := ?_ }, ⟨.refl _ _, ?_, fun _ => .of_rows rfl rfl, rfl, rfl, rfl⟩⟩
  · exact (Function.forall_update_iff s.labels fun l t => KeyedLabels db p l t).mpr
      ⟨ht, fun l _ => h.labels l⟩
  · exact (Function.forall_update_iff s.labels fun l t => GrowsLabels p l (!i) (s.labels l) t).mpr
      ⟨hgrows, fun l _ => .refl _ _⟩

theorem Inv.setCrateLabels (h : Inv db p s) {l : Label} {t : Versioned (ℕ × ℕ)}
    (ht : Owned Prod.fst (db.labels l).ofCrates.rows (own p s) (s.ended · = true) t)
    (hchanges : t.changes (!i) = (s.crateLabels l).changes !i)
    (hrows : t.rows = (s.crateLabels l).rows) :
    Inv db p (s.setCrateLabels l t) ∧ Rely p (!i) s (s.setCrateLabels l t) := by
  refine ⟨{ h with crateLabels := ?_ }, ⟨.refl _ _, fun _ => .refl _ _, ?_, rfl, rfl, rfl⟩⟩
  · exact (Function.forall_update_iff s.crateLabels fun l t =>
      Owned Prod.fst (db.labels l).ofCrates.rows (own p s) (s.ended · = true) t).mpr
      ⟨ht, fun l _ => h.crateLabels l⟩
  · exact (Function.forall_update_iff s.crateLabels fun l t =>
      Leaves Prod.fst (own p s) (!i) (s.crateLabels l) t).mpr
      ⟨.of_rows hchanges hrows, fun l _ => .of_rows rfl rfl⟩

theorem Inv.addVersion (h : Inv db p s) (row : VersionRow) (hrow : own p s i row.crate) :
    Inv db p { s with versions := s.versions.add i row } ∧
      Rely p (!i) s { s with versions := s.versions.add i row } := by
  have hrely : Rely p (!i) s { s with versions := s.versions.add i row } :=
    ⟨.refl _ _, fun _ => .refl _ _, fun _ => .of_rows rfl rfl, Versioned.changes_add_not, rfl, rfl⟩
  refine ⟨{ h with
    versions := h.versions.add row hrow
    features := h.features.mono
      (fun _ _ => hrely.ownVersion (.of_has fun _ => Versioned.has_add_of_has)) fun _ => id
    next_le := Nat.le_succ_of_le h.next_le
    new := ?_
    no_drops := ?_ }, hrely⟩
  · refine (Function.forall_update_iff s.versions.changes fun _ c =>
      ∀ v ∈ c.puts, db.crateVersions.next ≤ v.1).mpr ⟨fun v hv => ?_, fun j _ => h.new j⟩
    rcases List.mem_append.mp hv with hv | hv
    · exact h.new i v hv
    · rw [List.mem_singleton.mp hv]
      exact h.next_le
  · exact (Function.forall_update_iff s.versions.changes fun _ c => c.drops = []).mpr
      ⟨h.no_drops i, fun j _ => h.no_drops j⟩

theorem Inv.addFeature (h : Inv db p s) (row : FeatureRow)
    (hrow : ownVersion p s i row.crateVersion) :
    Inv db p { s with features := s.features.add i row } ∧
      Rely p (!i) s { s with features := s.features.add i row } :=
  ⟨{ h with features := h.features.add row hrow },
    ⟨.refl _ _, fun _ => .refl _ _, fun _ => .of_rows rfl rfl, rfl, Versioned.changes_add_not, rfl⟩⟩

theorem Inv.setDependencies (h : Inv db p t) (hrely : Rely p (!i) s t)
    (d : Versioned DependencyRow) :
    Inv db p { t with dependencies := d } ∧ Rely p (!i) s { t with dependencies := d } :=
  ⟨{ h with }, { hrely with }⟩

/-! ## The two crates -/

/-- Rows of the same crate are not of both publishes. -/
theorem Inv.not_own (h : Inv db p s) (hnames : (p true).name ≠ (p false).name) {id : ℕ}
    (hown : own p s i id) : ¬ own p s (!i) id := by
  rintro ⟨r', hr', hid', hkey'⟩
  obtain ⟨r, hr, hid, hkey⟩ := hown
  have hsame := h.crates.numbered.eq_of_id r r' hr hr' (hid.trans hid'.symm)
  rw [hkey, hkey'] at hsame
  have hname : (p i).name = (p !i).name := congrArg Prod.fst hsame
  cases i with
  | true => exact hnames hname
  | false => exact hnames hname.symm

theorem Inv.not_ownVersion (h : Inv db p s) (hnames : (p true).name ≠ (p false).name) {id : ℕ}
    (hown : ownVersion p s i id) : ¬ ownVersion p s (!i) id := by
  rintro ⟨v', hv', hid', hown'⟩
  obtain ⟨v, hv, hid, hown⟩ := hown
  rw [h.versions.numbered.eq_of_id v' v hv' hv (hid'.trans hid.symm)] at hown'
  exact h.not_own hnames hown hown'

/-! ## Where a publish is -/

/-- Before its first statement. -/
structure AtStart (p : Bool → Publish) (i : Bool) (s : Tables) : Prop where
  running : s.ended i = false
  versions : (s.versions.changes i).puts = []
  features : (s.features.changes i).puts = []

/-- It has its crate, and has not released the version. -/
structure AtCrate (p : Bool → Publish) (i : Bool) (crate : ℕ) (s : Tables) : Prop
    extends AtStart p i s where
  crate : ∃ r ∈ s.crates.view i, r.1 = crate ∧ crateKey r.2 = ((p i).name, "")

/-- It has released the version, and these features are left. -/
structure AtVersion (i : Bool) (versionId : ℕ) (left : List (String × List String)) (s : Tables) :
    Prop where
  running : s.ended i = false
  version : ∃ v ∈ (s.versions.changes i).puts, v.1 = versionId
  features : ∀ f ∈ (s.features.changes i).puts, f.2.name ∉ left.map Prod.fst

section Stable

variable {waits : Bool}

open Interleaving (Stable)

theorem AtStart.rely (h : AtStart p i s) (hrely : Rely p i s t) : AtStart p i t where
  running := hrely.ended.trans h.running
  versions := hrely.versions ▸ h.versions
  features := hrely.features ▸ h.features

theorem stable_atStart : Stable (contract db p waits) i (AtStart p i) :=
  fun _ _ hrely _ h => h.rely hrely

theorem stable_atCrate (crate : ℕ) : Stable (contract db p waits) i (AtCrate p i crate) := by
  intro s t hrely ht h
  obtain ⟨r, hr, hid, hkey⟩ := h.crate
  obtain ⟨r', hr', hid', hkey'⟩ := hrely.crates.view ht.crates hr
  exact ⟨h.toAtStart.rely hrely, r', hr', hid'.trans hid, hkey'.trans hkey⟩

theorem stable_atVersion (versionId : ℕ) (left : List (String × List String)) :
    Stable (contract db p waits) i (AtVersion i versionId left) :=
  fun _ _ hrely _ h => ⟨hrely.ended.trans h.running, hrely.versions ▸ h.version,
    hrely.features ▸ h.features⟩

theorem Stable.and {P Q : Tables → Prop} (hP : Stable (contract db p waits) i P)
    (hQ : Stable (contract db p waits) i Q) :
    Stable (contract db p waits) i fun s => P s ∧ Q s :=
  fun s t hrely ht h => ⟨hP s t hrely ht h.1, hQ s t hrely ht h.2⟩

theorem stable_const (P : Prop) : Stable (contract db p waits) i fun _ => P :=
  fun _ _ _ _ h => h

end Stable

theorem AtCrate.own {crate : ℕ} (h : AtCrate p i crate s) : own p s i crate := by
  obtain ⟨r, hr, hid, hkey⟩ := h.crate
  exact ⟨r, Versioned.has_of_mem_view hr, hid, hkey⟩

theorem AtVersion.ownVersion {versionId : ℕ} {left : List (String × List String)}
    (h : AtVersion i versionId left s) (hs : Inv db p s) : ownVersion p s i versionId := by
  obtain ⟨v, hv, hid⟩ := h.version
  exact ⟨v, Or.inr ⟨i, hv⟩, hid, hs.versions.puts i v hv⟩

theorem AtVersion.mem_view {versionId : ℕ} {left : List (String × List String)}
    (h : AtVersion i versionId left s) (hs : Inv db p s) : versionId ∈ ids (s.versions.view i) := by
  obtain ⟨v, hv, rfl⟩ := h.version
  refine List.mem_map_of_mem (Versioned.mem_view.mpr ⟨Or.inr hv, ?_⟩)
  rw [hs.no_drops]
  exact List.not_mem_nil

/-! ## The statements -/

section Statements

variable {waits : Bool} (hind : Independent waits db p)

include hind

theorem Independent.share_crates (i : Bool) (k : String × String) (hk : k ∈ crateKeys (p i))
    (hother : k ∈ crateKeys (p !i)) : ∃ c ∈ db.crates.rows, crateKey c.2 = k := by
  cases i with
  | true => exact hind.crates k hk hother
  | false => exact hind.crates k hother hk

theorem Independent.share_labels (l : Label) (i : Bool) (k : String) (hk : k ∈ wanted l (p i))
    (hother : k ∈ wanted l (p !i)) : ∃ r ∈ (db.labels l).names.rows, r.2 = k := by
  cases i with
  | true => exact hind.labels l k hk hother
  | false => exact hind.labels l k hother hk

theorem Independent.not_touched : ((p i).name, "") ≠ ((p !i).name, "") := by
  intro heq
  have hname : (p i).name = (p !i).name := congrArg Prod.fst heq
  cases i with
  | true => exact hind.names hname
  | false => exact hind.names hname.symm

open Interleaving (Holds Fine)

theorem holds_getOrInsertCrate :
    Holds (database waits) (contract db p waits) i (AtStart p i)
      (Prog.ask (Query.getOrInsertCrate (p i).name)) fun r => AtCrate p i r.1 := by
  refine Holds.call stable_atStart (fun r => stable_atCrate r.1) fun t u _ hu _ _ hP => ?_
  have hneeds : crateKey (CrateRow.bare (p i).name "") ∈ crateKeys (p i) := List.mem_cons_self ..
  obtain ⟨r, v, hup, hr, hkey, hv, hgrows⟩ :=
    hu.crates.upsert hind.share_crates hneeds rfl hind.not_touched
  have hstep := hu.setCrates hP.running hv hgrows
  refine Fine.of_answers (b := r) ?_ hstep
    ⟨⟨hP.running, hP.versions, hP.features⟩, r, hr, rfl, hkey⟩
  simp only [database, attempt, hup]

theorem holds_updateCrate (crate : ℕ) :
    Holds (database waits) (contract db p waits) i (AtCrate p i crate)
      (Prog.ask (Query.updateCrate crate (p i))) fun _ => AtCrate p i crate := by
  refine Holds.call (stable_atCrate crate) (fun _ => stable_atCrate crate)
    fun t u _ hu _ _ hP => ?_
  obtain ⟨r, hr, hid, hkey⟩ := hP.crate
  have hneeds : crateKey r.2 ∈ crateKeys (p i) := hkey ▸ List.mem_cons_self ..
  have hheld : u.crates.held i crate = false := hid ▸ hu.crates.not_held hind.share_crates
    (Versioned.has_of_mem_view hr) hneeds (hkey ▸ hind.not_touched)
  cases hfind : (u.crates.view i).find? (·.1 = crate) with
  | none =>
    have hne := List.find?_eq_none.mp hfind r hr
    simp only [decide_eq_true_eq] at hne
    exact absurd hid hne
  | some r' =>
    have hr' := List.mem_of_find?_eq_some hfind
    have hid' : r'.1 = crate := by simpa using List.find?_some hfind
    have hkey' : crateKey r'.2 = ((p i).name, "") :=
      (hu.crates.numbered.eq_of_id r' r (Versioned.has_of_mem_view hr')
        (Versioned.has_of_mem_view hr) (hid'.trans hid.symm)).trans hkey
    have hrefresh : crateKey (CrateRow.refresh crate (p i) r') = crateKey r'.2 :=
      CrateRow.refresh_key crate (p i) r'
    have hput := hu.crates.put (x := (r'.1, CrateRow.refresh crate (p i) r')) hr' rfl hrefresh
      (hkey' ▸ List.mem_cons_self ..) hkey'
    refine Fine.of_answers (b := ()) ?_ (hu.setCrates hP.running hput
      (hu.crates.grows_put hr' rfl hrefresh)) ⟨⟨hP.running, hP.versions, hP.features⟩,
        (r'.1, CrateRow.refresh crate (p i) r'), ?_, hid', hrefresh.trans hkey'⟩
    · simp only [database, attempt, hheld, hfind, Bool.false_eq_true, if_false]
    · rw [hput.mem_view, Versioned.changes_put_self]
      exact Or.inr (List.mem_append_right _ (List.mem_singleton_self _))

omit hind in
theorem holds_getCrateLabels (l : Label) (crate : ℕ) :
    Holds (database waits) (contract db p waits) i (AtCrate p i crate)
      (Prog.ask (Query.getCrateLabels l crate)) fun _ => AtCrate p i crate :=
  Holds.call (stable_atCrate crate) (fun _ => stable_atCrate crate) fun _ _ _ hu _ _ hP =>
    Fine.of_answers rfl ⟨hu, Rely.refl⟩ hP

/-- The transaction sees the label. -/
def SeesLabel (i : Bool) (l : Label) (label : ℕ) (s : Tables) : Prop :=
  ∃ r ∈ (s.labels l).view i, r.1 = label

omit hind in
theorem stable_seesLabel (l : Label) (label : ℕ) :
    Interleaving.Stable (contract db p waits) i (SeesLabel i l label) := by
  intro s t hrely ht h
  obtain ⟨r, hr, hid⟩ := h
  obtain ⟨r', hr', hid', -⟩ := (hrely.labels l).view (ht.labels l) hr
  exact ⟨r', hr', hid'.trans hid⟩

theorem holds_insertLabel (l : Label) (crate : ℕ) {name : String} (hname : name ∈ wanted l (p i)) :
    Holds (database waits) (contract db p waits) i (AtCrate p i crate)
      (Prog.ask (Query.insertLabel l name))
      fun label s => AtCrate p i crate s ∧ SeesLabel i l label s := by
  refine Holds.call (stable_atCrate crate)
    (fun label => Stable.and (stable_atCrate crate) (stable_seesLabel l label))
    fun t u ht hu hrely _ hP => ?_
  rcases (ht.labels l).getOrCreate (hind.share_labels l) waits (hu.labels l) (hrely.labels l)
    hname with ⟨-, -, htouch, -⟩ | ⟨ins, v, r, hins, hone, hr, -, hv, hgrows⟩
  · exact htouch.elim
  have hstep := hu.setLabels hv hgrows
  refine Fine.of_answers (b := r.1) ?_ hstep ⟨⟨⟨hP.running, hP.versions, hP.features⟩, hP.crate⟩,
    r, ?_, rfl⟩
  · simp only [id_eq] at hone
    simp only [database, attempt, hins, hone]
  · rwa [Tables.labels_setLabels]

omit hind in
theorem holds_insertCrateLabel (l : Label) (crate label : ℕ) :
    Holds (database waits) (contract db p waits) i
      (fun s => AtCrate p i crate s ∧ SeesLabel i l label s)
      (Prog.ask (Query.insertCrateLabel l crate label)) fun _ => AtCrate p i crate := by
  refine Holds.call (Stable.and (stable_atCrate crate) (stable_seesLabel l label))
    (fun _ => stable_atCrate crate) fun t u _ hu _ _ hP => ?_
  obtain ⟨hP, r', hr', hid'⟩ := hP
  obtain ⟨r, hr, hid, -⟩ := hP.crate
  have hboth : crate ∈ ids (u.crates.view i) ∧ label ∈ ids ((u.labels l).view i) :=
    ⟨hid ▸ List.mem_map_of_mem hr, hid' ▸ List.mem_map_of_mem hr'⟩
  have hstep := hu.setCrateLabels (i := i) ((hu.crateLabels l).add (crate, label) hP.own)
    Versioned.changes_add_not rfl
  refine Fine.of_answers (b := ()) ?_ hstep ⟨⟨hP.running, hP.versions, hP.features⟩, hP.crate⟩
  simp only [database, attempt]
  rw [if_pos hboth]

theorem holds_removeCrateLabel (l : Label) (crate : ℕ) (name : String) :
    Holds (database waits) (contract db p waits) i (AtCrate p i crate)
      (Prog.ask (Query.removeCrateLabel l crate name)) fun _ => AtCrate p i crate := by
  refine Holds.call (stable_atCrate crate) (fun _ => stable_atCrate crate)
    fun t u _ hu hrely _ hP => ?_
  have hcrate : ∀ (s : Tables), ∀ id ∈ s.crateLabelIds i l crate name,
      ∃ r ∈ (s.crateLabels l).view i, r.1 = id ∧ r.2.1 = crate := by
    intro s id hid
    obtain ⟨r, hr, rfl⟩ := List.mem_map.mp hid
    obtain ⟨hr, hof⟩ := List.mem_filter.mp hr
    rw [Bool.and_eq_true, decide_eq_true_eq] at hof
    exact ⟨r, hr, rfl, hof.1⟩
  have hheld : (t.crateLabelIds i l crate name).any ((u.crateLabels l).held i) = false := by
    refine List.any_eq_false.mpr fun id hid => Bool.not_eq_true _ ▸ ?_
    obtain ⟨r, hr, rfl, rfl⟩ := hcrate t id hid
    exact (hu.crateLabels l).not_held (hrely.crateLabels l) hr (hu.not_own hind.names hP.own)
  have hdropped : ∀ id ∈ (u.crateLabelIds i l crate name).filter
      (· ∈ t.crateLabelIds i l crate name),
      ∃ r, (u.crateLabels l).Has r ∧ r.1 = id ∧ own p u i r.2.1 := by
    intro id hid
    obtain ⟨r, hr, rfl, rfl⟩ := hcrate u id (List.mem_of_mem_filter hid)
    exact ⟨r, Versioned.has_of_mem_view hr, rfl, hP.own⟩
  have hstep := hu.setCrateLabels ((hu.crateLabels l).drop hdropped) Versioned.changes_drop_not rfl
  refine Fine.of_answers (b := ()) ?_ hstep ⟨⟨hP.running, hP.versions, hP.features⟩, hP.crate⟩
  simp only [database, attempt, hheld, Bool.false_eq_true, if_false]

/-- No version of the database is the one that is to be released. -/
theorem Independent.version_ne (hc : Consistent db) {crate : ℕ} (hs : Inv db p s)
    (hown : own p s i crate) {v : ℕ × VersionRow} (hv : v ∈ db.crateVersions.rows) :
    versionKey v.2 ≠ (crate, (p i).vers.display) := by
  intro heq
  obtain ⟨rfl, hvers⟩ := Prod.mk.inj heq
  obtain ⟨name, hname⟩ := hc.versions v hv
  obtain ⟨c, hcrate, hc⟩ := List.mem_map.mp hname
  obtain ⟨r, hr, hid, hkey⟩ := hs.names c hcrate
  obtain ⟨r', hr', hid', hkey'⟩ := hown
  obtain ⟨hcid, hckey⟩ := Prod.mk.inj hc
  have hsame := hs.crates.numbered.eq_of_id r r' hr hr' ((hid.trans hcid).trans hid'.symm)
  rw [hkey, hkey'] at hsame
  obtain ⟨hcname, hcregistry⟩ := Prod.mk.inj hsame
  have hnone := List.filter_eq_nil_iff.mp (hind.versions i) v hv
  refine hnone ?_
  unfold Db.selects
  rw [Bool.and_eq_true, decide_eq_true_eq, List.any_eq_true]
  exact ⟨hvers, c, hcrate, by simp [hcid, hcname, hcregistry]⟩

theorem holds_insertVersion (hc : Consistent db) (crate : ℕ) (tarballChecksum : Checksum)
    (left : List (String × List String)) :
    Holds (database waits) (contract db p waits) i (AtCrate p i crate)
      (Prog.ask (Query.insertVersion crate (p i) tarballChecksum))
      fun versionId => AtVersion i versionId left := by
  refine Holds.call (stable_atCrate crate) (fun id => stable_atVersion id left)
    fun t u _ hu _ _ hP => ?_
  have hinsert := hu.versions.insert versionKey true (versionRow crate (p i) tarballChecksum)
    (fun _ _ h => congrArg Prod.fst h) (Bool.eq_false_iff.mp hP.running)
    (hu.not_own hind.names hP.own) (fun v hv => hind.version_ne hc hu hP.own hv)
    (fun v hv => absurd (hP.versions ▸ hv) List.not_mem_nil)
  obtain ⟨r, hr, hid, -⟩ := hP.crate
  have hcrate : crate ∈ ids (u.crates.view i) := hid ▸ List.mem_map_of_mem hr
  refine Fine.of_answers (b := u.versions.next) ?_
    (hu.addVersion (versionRow crate (p i) tarballChecksum) hP.own)
    ⟨hP.running, ?_, fun f hf => absurd (hP.features ▸ hf) List.not_mem_nil⟩
  · simp only [database, attempt, hinsert, hcrate, if_true]
  · rw [Versioned.changes_add_self]
    exact ⟨_, List.mem_append_right _ (List.mem_singleton_self _), rfl⟩

theorem holds_insertDependency (versionId : ℕ) {left : List (String × List String)}
    {d : PublishDependency} (hd : d ∈ (p i).deps) :
    Holds (database waits) (contract db p waits) i (AtVersion i versionId left)
      (Prog.ask (Query.insertDependency versionId d)) fun _ => AtVersion i versionId left := by
  refine Holds.call (stable_atVersion versionId left) (fun _ => stable_atVersion versionId left)
    fun t u ht hu hrely _ hP => ?_
  have hkeys : (d.name, d.registry.getD "") ∈ dependencyKeys (p i) := List.mem_map_of_mem hd
  have hneeds : crateKey (CrateRow.bare d.name (d.registry.getD "")) ∈ crateKeys (p i) :=
    List.mem_cons_of_mem _ hkeys
  rcases ht.crates.getOrCreate hind.share_crates waits hu.crates hrely.crates hneeds with
    ⟨hwait, hwaits, htouch, hputs⟩ | ⟨ins, v, r, hins, hone, hr, -, hv, hgrows⟩
  · refine Fine.of_waits ?_ ⟨hwaits, htouch ▸ hkeys⟩ fun hended => hputs (hu.ended _ hended)
    simp only [database, attempt, hwait]
  · have hboth : versionId ∈ ids (u.versions.view i) ∧ r.1 ∈ ids (v.view i) :=
      ⟨hP.mem_view hu, List.mem_map_of_mem hr⟩
    have hids : ins.toList ++ ids (withKey crateKey (t.crates.view i)
        (d.name, d.registry.getD "")) = [r.1] := hone
    have hstep := hu.setCrates hP.running hv hgrows
    refine Fine.of_answers (b := ()) ?_ (hstep.1.setDependencies hstep.2
      (u.dependencies.add i (dependencyRow versionId r.1 d)))
      ⟨hP.running, hP.version, hP.features⟩
    simp only [database, attempt, hins, hids]
    rw [if_pos hboth]

theorem holds_insertFeature (hc : Consistent db) (versionId : ℕ) (f : String × List String)
    {left : List (String × List String)} (hf : f.1 ∉ left.map Prod.fst) :
    Holds (database waits) (contract db p waits) i (AtVersion i versionId (f :: left))
      (Prog.ask (Query.insertFeature versionId f)) fun _ => AtVersion i versionId left := by
  refine Holds.call (stable_atVersion versionId (f :: left))
    (fun _ => stable_atVersion versionId left) fun t u _ hu _ _ hP => ?_
  have hbase : ∀ r ∈ db.features.rows, featureKey r.2 ≠ (versionId, f.1) := by
    intro r hr heq
    obtain ⟨v, hv, hid⟩ := hP.version
    obtain ⟨v', hv', hid'⟩ := List.mem_map.mp (hc.features r hr)
    have hlt := db.crateVersions.lt_next v' hv'
    have hle := hu.new i v hv
    have hversion : r.2.crateVersion = versionId := congrArg Prod.fst heq
    omega
  have hputs : ∀ r ∈ (u.features.changes i).puts, featureKey r.2 ≠ (versionId, f.1) := by
    intro r hr heq
    have hname : r.2.name = f.1 := congrArg Prod.snd heq
    exact hP.features r hr (hname ▸ List.mem_cons_self ..)
  have hown := hP.ownVersion hu
  have hinsert := hu.features.insert featureKey true ⟨versionId, f.1, f.2⟩
    (fun _ _ h => congrArg Prod.fst h) (Bool.eq_false_iff.mp hP.running)
    (hu.not_ownVersion hind.names hown) hbase hputs
  refine Fine.of_answers (b := ()) ?_ (hu.addFeature ⟨versionId, f.1, f.2⟩ hown)
    ⟨hP.running, hP.version, fun r hr hmem => ?_⟩
  · simp only [database, attempt, hinsert, hP.mem_view hu, if_true]
  · rw [Versioned.changes_add_self] at hr
    rcases List.mem_append.mp hr with hr | hr
    · exact hP.features r hr (List.mem_cons_of_mem _ hmem)
    · rw [List.mem_singleton.mp hr] at hmem
      exact hf hmem

/-- What the other publish may rely on after a commit. -/
theorem Independent.rely_commit (hs : Inv db p s) (i : Bool) : Rely p (!i) s (s.commit i) := by
  have hcrates := hs.crates.commit hind.share_crates i
  exact {
    crates := hcrates.2
    labels := fun l => ((hs.labels l).commit (hind.share_labels l) i).2
    crateLabels := fun l =>
      ((hs.crateLabels l).commit i).2.trans (.of_rows rfl rfl) fun _ => hcrates.2.kept.named
    versions := Versioned.changes_commit_not
    features := Versioned.changes_commit_not
    ended := Function.update_of_ne (by simp) .. }

omit hind in
theorem ended_commit (s : Tables) (i : Bool) {j : Bool} (h : s.ended j = true ∨ j = i) :
    (s.commit i).ended j = true := by
  rcases h with hj | rfl
  · by_cases hji : j = i
    · rw [hji]
      exact Function.update_self ..
    · exact (Function.update_of_ne hji ..).trans hj
  · exact Function.update_self ..

/-- **The commit** of a publish. -/
theorem Independent.commit (hs : Inv db p s) (i : Bool) :
    Inv db p (s.commit i) ∧ Rely p (!i) s (s.commit i) ∧ (s.commit i).ended i = true := by
  have hcrates := hs.crates.commit hind.share_crates i
  have hown : ∀ j id, own p s j id → own p (s.commit i) j id :=
    fun _ _ => hcrates.2.kept.named
  have hrely := hind.rely_commit hs i
  have hended : ∀ j, s.ended j = true ∨ j = i → (s.commit i).ended j = true :=
    fun _ => ended_commit s i
  have hversions := hs.versions.numbered.keeps_commit (hs.no_drops i)
  refine ⟨{
    crates := hcrates.1
    names := fun c hc => hcrates.2.kept.named (hs.names c hc)
    labels := fun l => ((hs.labels l).commit (hind.share_labels l) i).1
    crateLabels := fun l => ((hs.crateLabels l).commit i).1.mono hown hended
    versions := (hs.versions.commit i).1.mono hown hended
    features := (hs.features.commit i).1.mono (fun _ _ => hrely.ownVersion hversions) hended
    next_le := hs.next_le
    new := ?_
    no_drops := ?_
    ended := fun j hj => ?_ }, hrely, Function.update_self ..⟩
  · refine (Function.forall_update_iff s.versions.changes fun _ c =>
      ∀ v ∈ c.puts, db.crateVersions.next ≤ v.1).mpr ⟨fun v hv => ?_, fun j _ => hs.new j⟩
    cases hv
  · exact (Function.forall_update_iff s.versions.changes fun _ c => c.drops = []).mpr
      ⟨rfl, fun j _ => hs.no_drops j⟩
  · by_cases hji : j = i
    · rw [hji]
      exact congrArg Changes.puts Versioned.changes_commit_self
    · have hsame : (s.commit i).crates.changes j = s.crates.changes j :=
        Function.update_of_ne hji ..
      rw [hsame]
      exact hs.ended j ((Function.update_of_ne hji ..).symm.trans hj)

/-! ## The program -/

theorem holds_refreshCrate (crate : ℕ × CrateRow) :
    Holds (database waits) (contract db p waits) i (AtCrate p i crate.1)
      (refreshCrate crate (p i)) fun _ => AtCrate p i crate.1 := by
  unfold refreshCrate
  split_ifs
  · exact holds_updateCrate hind crate.1
  · exact Holds.done (stable_atCrate crate.1) fun _ _ h => h

theorem holds_addLabel (l : Label) (crate : ℕ) {name : String} (hname : name ∈ wanted l (p i)) :
    Holds (database waits) (contract db p waits) i (AtCrate p i crate) (addLabel l crate name)
      fun _ => AtCrate p i crate :=
  (holds_insertLabel hind l crate hname).bind fun label => holds_insertCrateLabel l crate label

theorem holds_addLabels (l : Label) (crate : ℕ) (had : List String) :
    Holds (database waits) (contract db p waits) i (AtCrate p i crate)
      (addLabels l crate (wanted l (p i)) had) fun _ => AtCrate p i crate := by
  have hall := Holds.each (M := database waits) (C := contract db p waits) (i := i)
    (f := addLabel l crate)
    (I := fun names s => AtCrate p i crate s ∧ ∀ k ∈ names, k ∈ wanted l (p i))
    (Stable.and (stable_atCrate crate) (stable_const _))
    (fun k names s hs hP => (holds_addLabel hind l crate (hP.2 k (List.mem_cons_self ..)) s hs
      hP.1).mono fun _ _ _ ht => ⟨ht, fun k hk => hP.2 k (List.mem_cons_of_mem _ hk)⟩)
    ((wanted l (p i)).filter fun k => !had.contains k)
  exact (hall.pre fun _ _ hP => ⟨hP, fun _ hk => List.mem_of_mem_filter hk⟩).post
    fun _ _ _ hP => hP.1

theorem holds_pruneLabels (l : Label) (crate : ℕ) (had : List String) :
    Holds (database waits) (contract db p waits) i (AtCrate p i crate)
      (pruneLabels l crate (wanted l (p i)) had) fun _ => AtCrate p i crate :=
  Holds.each (I := fun _ => AtCrate p i crate) (stable_atCrate crate)
    (fun k _ => holds_removeCrateLabel hind l crate k) _

theorem holds_refreshLabels (crate : ℕ) :
    Holds (database waits) (contract db p waits) i (AtCrate p i crate)
      (refreshLabels crate (p i)) fun _ => AtCrate p i crate :=
  (holds_getCrateLabels .keyword crate).bind fun keywords =>
    (holds_getCrateLabels .category crate).bind fun categories =>
      (holds_addLabels hind .keyword crate keywords).bind fun _ =>
        (holds_addLabels hind .category crate categories).bind fun _ =>
          (holds_pruneLabels hind .keyword crate keywords).bind fun _ =>
            holds_pruneLabels hind .category crate categories

theorem holds_insertDependencies (versionId : ℕ) (left : List (String × List String)) :
    Holds (database waits) (contract db p waits) i (AtVersion i versionId left)
      (Prog.each (fun d => Prog.ask (Query.insertDependency versionId d)) (p i).deps)
      fun _ => AtVersion i versionId left := by
  have hall := Holds.each (M := database waits) (C := contract db p waits) (i := i)
    (f := fun d => Prog.ask (Query.insertDependency versionId d))
    (I := fun deps s => AtVersion i versionId left s ∧ ∀ d ∈ deps, d ∈ (p i).deps)
    (Stable.and (stable_atVersion versionId left) (stable_const _))
    (fun d deps s hs hP => (holds_insertDependency hind versionId
      (hP.2 d (List.mem_cons_self ..)) s hs hP.1).mono fun _ _ _ ht =>
        ⟨ht, fun d hd => hP.2 d (List.mem_cons_of_mem _ hd)⟩) (p i).deps
  exact (hall.pre fun _ _ hP => ⟨hP, fun _ => id⟩).post fun _ _ _ hP => hP.1

theorem holds_insertFeatures (hc : Consistent db) (versionId : ℕ) :
    Holds (database waits) (contract db p waits) i
      (AtVersion i versionId (p i).features.iter)
      (Prog.each (fun f => Prog.ask (Query.insertFeature versionId f)) (p i).features.iter)
      fun _ => AtVersion i versionId [] := by
  have hall := Holds.each (M := database waits) (C := contract db p waits) (i := i)
    (f := fun f => Prog.ask (Query.insertFeature versionId f))
    (I := fun left s => AtVersion i versionId left s ∧ (left.map Prod.fst).Nodup)
    (Stable.and (stable_atVersion versionId []) (stable_const _))
    (fun f left s hs hP => (holds_insertFeature hind hc versionId f
      (List.nodup_cons.mp hP.2).1 s hs hP.1).mono fun _ _ _ ht =>
        ⟨ht, (List.nodup_cons.mp hP.2).2⟩) (p i).features.iter
  exact (hall.pre fun _ _ hP => ⟨hP, (p i).features.nodup_iter⟩).post fun _ _ _ hP => hP.1

/-- **The statements of a publish** do not fail, whatever the other publish does. -/
theorem holds_transaction (hc : Consistent db) (tarballChecksum : Checksum) :
    Holds (database waits) (contract db p waits) i (AtStart p i)
      (transaction (p i) tarballChecksum) fun _ _ => True := by
  refine Holds.bind (holds_getOrInsertCrate hind) fun crate => ?_
  refine Holds.bind (holds_refreshCrate hind crate) fun _ => ?_
  refine Holds.bind (holds_refreshLabels hind crate.1) fun _ => ?_
  refine Holds.bind (holds_insertVersion hind hc crate.1 tarballChecksum (p i).features.iter)
    fun versionId => ?_
  refine Holds.bind (holds_insertDependencies hind versionId _) fun _ => ?_
  exact (holds_insertFeatures hind hc versionId).post fun _ _ _ _ => trivial

omit hind in
/-- **Independent publishes both commit**, in any order of their statements. -/
theorem independent_commit (calls : List Call) (waitsForUpdates : Bool) (p : Bool → Publish)
    (tarballChecksum : Bool → Checksum)
    (h : Independent waitsForUpdates (Run.final PgIndex.step Db.empty calls) p) :
    Interleaving.BothCommit (database waitsForUpdates)
      (begin (Run.final PgIndex.step Db.empty calls) p tarballChecksum) := by
  have hc : Consistent (Run.final PgIndex.step Db.empty calls) := consistent_final calls
  refine Interleaving.bothCommit_initial (M := database waitsForUpdates)
    (C := contract (Run.final PgIndex.step Db.empty calls) p waitsForUpdates)
    (Ψ := fun _ _ => True) (fun i hi hother => ?_) (fun i s hs _ => h.commit hs i) inv_ofDb
    fun i => ?_
  · -- each depends on the crate of the other
    cases i with
    | true => exact h.one_way hi.1 hother.2 hi.2
    | false => exact h.one_way hi.1 hi.2 hother.2
  · exact holds_transaction h hc (tarballChecksum i) _ inv_ofDb ⟨rfl, rfl, rfl⟩

end Statements

end Independent

/-- Crates `a` and `b` with keywords of their own. -/
def apart (i : Bool) : Publish := if i then tagged "a" "tls" else tagged "b" "http"

theorem independent_commit_apart :
    Independent true (Run.final PgIndex.step Db.empty []) apart ∧
      Interleaving.BothCommit (database true) (begin (Run.final PgIndex.step Db.empty []) apart
        fun _ => List.Vector.replicate 32 0) := by
  have hind : Independent true (Run.final PgIndex.step Db.empty []) apart := by
    refine ⟨by decide, fun k hk hother => ?_, fun l k hk hother => ?_, fun _ => rfl, fun _ h => ?_⟩
    · rw [List.mem_singleton.mp hk] at hother
      exact absurd hother (by decide)
    · cases l with
      | keyword =>
        rw [List.mem_singleton.mp hk] at hother
        exact absurd hother (by decide)
      | category => cases hk
    · cases h
  exact ⟨hind, independent_commit [] true apart _ hind⟩

end Concurrent

end PgIndex

end Freighter
