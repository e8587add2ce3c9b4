import Freighter.Pg.Crates
import Mathlib.Data.Finset.Dedup
import Mathlib.Data.Set.Insert

/-!
# What is kept once for all versions of a crate

The description, the links and the labels of a crate, which every publish replaces.

* `About`, `Abouts.publish`: what the tables are for; `Db.about`: what they say.
* `Db.links`: the labels of the crates; **`links_refreshLabels`**: a publish leaves its own labels.
* **`about_insertRelease`**: a transaction that goes through is `Abouts.publish`.
* **`about_reflects_last_publish`**: in every run a crate is what its last committed publish says.
-/

namespace Freighter

namespace PgIndex

/-! ## What the tables are for -/

/-- What is kept of a crate. -/
@[ext] structure About where
  description : Option String
  documentation : Option String
  homepage : Option String
  repository : Option String
  labels : Label → Finset String

/-- Of a crate that was never published. -/
def About.nothing : About := ⟨none, none, none, none, fun _ => ∅⟩

/-- What a publish says. -/
def About.of (p : Publish) : About where
  description := p.description
  documentation := p.documentation
  homepage := p.homepage
  repository := p.repository
  labels
    | .keyword => p.keywords.toFinset
    | .category => p.categories.toFinset

/-- What is kept of each crate, by its name and its registry. -/
abbrev Abouts : Type := String → String → About

/-- A publish replaces what is kept of its crate. -/
def Abouts.publish (a : Abouts) (p : Publish) : Abouts := fun name registry =>
  if name = p.name ∧ registry = "" then .of p else a name registry

/-! ## What they say -/

/-- What is kept of the crate in a row. -/
def Db.aboutRow (db : Db) (c : ℕ × CrateRow) : About where
  description := c.2.description
  documentation := c.2.documentation
  homepage := c.2.homepage
  repository := c.2.repository
  labels l := (getCrateLabels l c.1 db).1.toFinset

/-- What is kept of each crate; nothing of one without a row. -/
def Db.about (db : Db) : Abouts := fun name registry =>
  match db.crates.rows.find? fun c => c.2.name = name && c.2.registry = registry with
  | some c => db.aboutRow c
  | none => .nothing

/-- The labels of the crates, by their kind and the id of the crate. -/
def Db.links (db : Db) : Set (Label × ℕ × String) :=
  {x | x.2.2 ∈ (getCrateLabels x.1 x.2.1 db).1}

section Links

variable {io : Io} {db db' : Db} {l l' : Label} {crate id : ℕ} {name k : String}

theorem mem_links : (l, id, k) ∈ db.links ↔ ∃ r ∈ (db.labels l).ofCrates.rows, r.2.1 = id ∧
    (r.2.2, k) ∈ (db.labels l).names.rows := by
  unfold Db.links getCrateLabels
  simp only [Set.mem_ofPred_eq, List.mem_flatMap, List.mem_filter, List.mem_map,
    decide_eq_true_eq, and_assoc]
  refine exists_congr fun r => and_congr_right fun _ => and_congr_right fun _ => ?_
  constructor
  · rintro ⟨n, hn, hid, rfl⟩
    rw [← hid]
    exact hn
  · exact fun h => ⟨_, h, rfl, rfl⟩

/-- The links to a table of labels that is replaced. -/
theorem links_setLabels (db : Db) (l : Label) (t : Labels) (l' : Label) (id : ℕ) (k : String) :
    (l', id, k) ∈ (db.setLabels l t).links ↔
      if l' = l then ∃ r ∈ t.ofCrates.rows, r.2.1 = id ∧ (r.2.2, k) ∈ t.names.rows
      else (l', id, k) ∈ db.links := by
  rw [mem_links]
  by_cases h : l' = l
  · subst h
    have ht : (db.setLabels l' t).labels l' = t := Function.update_self _ _ _
    rw [if_pos rfl, ht]
  · have ht : (db.setLabels l t).labels l' = db.labels l' := Function.update_of_ne h _ _
    rw [if_neg h, ht, mem_links]

/-- The crates are those of `db`, and their labels these. -/
structure Relinked (db db' : Db) (links : Set (Label × ℕ × String)) : Prop where
  crates : db'.crates = db.crates
  linked : db'.LabelsLinked
  links : db'.links = links

/-- The label that is got or inserted, and the crate's new link to it. -/
theorem addLabel_eq_ok (h : addLabel io l crate name db = (.ok (), db')) :
    ∃ r t t', db' = db.setLabels l ⟨t, t'⟩ ∧ r.2 = name ∧ r ∈ t.rows ∧
      (t.rows = (db.labels l).names.rows ∨
        r.1 = (db.labels l).names.next ∧ t.rows = (db.labels l).names.rows ++ [r]) ∧
      t'.rows = (db.labels l).ofCrates.rows ++ [((db.labels l).ofCrates.next, (crate, r.1))] := by
  obtain ⟨id, db₁, h₁, h₂⟩ := Tx.bind_eq_ok.mp h
  obtain ⟨-, h₁⟩ := statement_eq_ok.mp h₁
  obtain ⟨-, h₂⟩ := statement_eq_ok.mp h₂
  obtain ⟨r, t, ht, hname, hmem, hrows⟩ := (db.labels l).names.getOrInsert_spec name
  obtain ⟨t', hins, ht'⟩ := (db.labels l).ofCrates.insert_primary (crate, r.1)
  unfold insertLabel at h₁
  rw [ht] at h₁
  cases h₁
  have hlabels : (db.setLabels l { db.labels l with names := t }).labels l =
      { db.labels l with names := t } := Function.update_self _ _ _
  unfold insertCrateLabel at h₂
  rw [hlabels] at h₂
  cases h₂
  refine ⟨r, t, t', ?_, hname, hmem, hrows.imp_right (And.imp_left (congrArg Prod.fst)), ht'⟩
  simp only [Db.setLabels, Function.update_idem, hins]

/-- **A label more.** -/
theorem links_addLabel (hl : db.LabelsLinked) (hc : crate ∈ db.crates.ids)
    (h : addLabel io l crate name db = (.ok (), db')) :
    Relinked db db' (insert (l, crate, name) db.links) := by
  have hlinked := (prepared_addLabel h hc).labels hl
  obtain ⟨r, t, t', rfl, rfl, hmem, hrows, ht'⟩ := addLabel_eq_ok h
  refine ⟨rfl, hlinked, ?_⟩
  have hsub : (db.labels l).names.rows ⊆ t.rows := by
    rcases hrows with hrows | ⟨-, hrows⟩
    · rw [hrows]
      exact fun _ hm => hm
    · rw [hrows]
      exact List.subset_append_left _ _
  -- an old link is to an old label, and its name is the old one
  have hold : ∀ s ∈ (db.labels l).ofCrates.rows, ∀ k, (s.2.2, k) ∈ t.rows →
      (s.2.2, k) ∈ (db.labels l).names.rows := by
    intro s hs k hk
    obtain ⟨n, hn, hid⟩ := List.mem_map.mp (hl l s hs).2
    have heq : n = (s.2.2, k) := Table.eq_of_id (hsub hn) hk hid
    rwa [← heq]
  ext ⟨l', id, k⟩
  rw [links_setLabels, Set.mem_insert_iff]
  by_cases hne : l' = l
  · subst hne
    rw [if_pos rfl, mem_links, ht']
    constructor
    · rintro ⟨s, hs, rfl, hk⟩
      rcases List.mem_append.mp hs with hs | hs
      · exact Or.inr ⟨s, hs, rfl, hold s hs k hk⟩
      · rw [List.mem_singleton.mp hs] at hk ⊢
        have heq : (r.1, k) = r := Table.eq_of_id hk hmem rfl
        rw [← heq]
        exact Or.inl rfl
    · rintro (heq | ⟨s, hs, hid, hk⟩)
      · cases heq
        exact ⟨_, List.mem_append_right _ (List.mem_singleton_self _), rfl, hmem⟩
      · exact ⟨s, List.mem_append_left _ hs, hid, hsub hk⟩
  · rw [if_neg hne]
    simp [hne]

/-- **A label less.** -/
theorem links_removeCrateLabel (hl : db.LabelsLinked)
    (h : removeCrateLabel l crate name db = ((), db')) :
    Relinked db db' (db.links \ {(l, crate, name)}) := by
  have hlinked := (prepared_removeCrateLabel h).labels hl
  unfold removeCrateLabel at h
  cases h
  refine ⟨rfl, hlinked, ?_⟩
  ext ⟨l', id, k⟩
  rw [links_setLabels, Set.mem_sdiff, Set.mem_singleton_iff]
  by_cases hne : l' = l
  · subst hne
    rw [if_pos rfl, mem_links]
    have hnamed : ∀ label, (label, k) ∈ (db.labels l').names.rows →
        (((db.labels l').names.rows.any fun n => n.1 = label && n.2 = name) = true ↔ k = name) := by
      intro label hk
      simp only [List.any_eq_true, Bool.and_eq_true, decide_eq_true_eq]
      constructor
      · rintro ⟨n, hn, hid, rfl⟩
        rw [Table.eq_of_id hn hk hid]
      · rintro rfl
        exact ⟨_, hk, rfl, rfl⟩
    simp only [Table.mem_delete, Bool.and_eq_false_iff, decide_eq_false_iff_not]
    constructor
    · rintro ⟨s, ⟨hs, hkept⟩, rfl, hk⟩
      refine ⟨⟨s, hs, rfl, hk⟩, fun heq => ?_⟩
      cases heq
      rcases hkept with hkept | hkept
      · exact hkept rfl
      · exact Bool.false_ne_true (hkept.symm.trans ((hnamed _ hk).mpr rfl))
    · rintro ⟨⟨s, hs, rfl, hk⟩, hne⟩
      refine ⟨s, ⟨hs, ?_⟩, rfl, hk⟩
      by_cases hcrate : s.2.1 = crate
      · refine Or.inr (Bool.eq_false_iff.mpr fun hany => hne ?_)
        rw [hcrate, (hnamed _ hk).mp hany]
      · exact Or.inl hcrate
  · rw [if_neg hne]
    simp [hne]

/-! ## The loops -/

/-- These labels of a crate. -/
def labelled (l : Label) (crate : ℕ) (names : List String) : Set (Label × ℕ × String) :=
  {x | x.1 = l ∧ x.2.1 = crate ∧ x.2.2 ∈ names}

theorem mem_labelled {names : List String} :
    (l', id, k) ∈ labelled l crate names ↔ l' = l ∧ id = crate ∧ k ∈ names := Iff.rfl

theorem links_each_addLabel {names : List String} (hl : db.LabelsLinked)
    (hc : crate ∈ db.crates.ids) (h : Tx.each (addLabel io l crate) names db = (.ok (), db')) :
    Relinked db db' (db.links ∪ labelled l crate names) := by
  induction names generalizing db with
  | nil =>
    obtain ⟨-, rfl⟩ := Tx.answer_eq_ok.mp h
    refine ⟨rfl, hl, ?_⟩
    ext ⟨l', id, k⟩
    simp [mem_labelled]
  | cons name names ih =>
    obtain ⟨db₁, h₁, h⟩ := Tx.each_cons_eq_ok.mp h
    have hone := links_addLabel hl hc h₁
    rw [← hone.crates] at hc
    have hrest := ih hone.linked hc h
    refine ⟨hrest.crates.trans hone.crates, hrest.linked, ?_⟩
    rw [hrest.links, hone.links]
    ext ⟨l', id, k⟩
    simp only [Set.mem_union, Set.mem_insert_iff, mem_labelled, List.mem_cons, Prod.mk.injEq]
    tauto

theorem links_each_removeCrateLabel {names : List String} (hl : db.LabelsLinked)
    (h : Tx.each (fun k => statement io (.removeCrateLabel l k) (removeCrateLabel l crate k)) names
      db = (.ok (), db')) : Relinked db db' (db.links \ labelled l crate names) := by
  induction names generalizing db with
  | nil =>
    obtain ⟨-, rfl⟩ := Tx.answer_eq_ok.mp h
    refine ⟨rfl, hl, ?_⟩
    ext ⟨l', id, k⟩
    simp [mem_labelled]
  | cons name names ih =>
    obtain ⟨db₁, h₁, h⟩ := Tx.each_cons_eq_ok.mp h
    obtain ⟨-, h₁⟩ := statement_eq_ok.mp h₁
    have hone := links_removeCrateLabel hl h₁
    have hrest := ih hone.linked h
    refine ⟨hrest.crates.trans hone.crates, hrest.linked, ?_⟩
    rw [hrest.links, hone.links]
    ext ⟨l', id, k⟩
    simp only [Set.mem_sdiff, Set.mem_singleton_iff, mem_labelled, List.mem_cons, Prod.mk.injEq]
    tauto

theorem getCrateLabels_eq_ok {names : List String}
    (h : statement io (.getCrateLabels l) (getCrateLabels l crate) db = (.ok names, db')) :
    db' = db ∧ ∀ k, k ∈ names ↔ (l, crate, k) ∈ db.links := by
  obtain ⟨-, h⟩ := statement_eq_ok.mp h
  have hnames : (getCrateLabels l crate db).1 = names := congrArg Prod.fst h
  refine ⟨(congrArg Prod.snd h).symm, fun k => ?_⟩
  rw [← hnames]
  rfl

/-- **The labels after a publish**: its own for its crate, and the others as they were. -/
theorem links_refreshLabels {p : Publish} (hl : db.LabelsLinked) (hc : crate ∈ db.crates.ids)
    (h : refreshLabels io crate p db = (.ok (), db')) :
    db'.crates = db.crates ∧ db'.LabelsLinked ∧ ∀ l id k, (l, id, k) ∈ db'.links ↔
      if id = crate then k ∈ (About.of p).labels l else (l, id, k) ∈ db.links := by
  obtain ⟨keywords, db₁, h₁, hrest⟩ := Tx.bind_eq_ok.mp h
  obtain ⟨categories, db₂, h₂, hloops⟩ := Tx.bind_eq_ok.mp hrest
  obtain ⟨rfl, hkeywords⟩ := getCrateLabels_eq_ok h₁
  obtain ⟨rfl, hcategories⟩ := getCrateLabels_eq_ok h₂
  clear h hrest
  obtain ⟨_, db₃, h₃, h⟩ := Tx.bind_eq_ok.mp hloops
  obtain ⟨_, db₄, h₄, h⟩ := Tx.bind_eq_ok.mp h
  obtain ⟨_, db₅, h₅, h₆⟩ := Tx.bind_eq_ok.mp h
  have hr₃ := links_each_addLabel hl hc h₃
  rw [← hr₃.crates] at hc
  have hr₄ := links_each_addLabel hr₃.linked hc h₄
  have hr₅ := links_each_removeCrateLabel hr₄.linked h₅
  have hr₆ := links_each_removeCrateLabel hr₅.linked h₆
  refine ⟨?_, hr₆.linked, fun l id k => ?_⟩
  · rw [hr₆.crates, hr₅.crates, hr₄.crates, hr₃.crates]
  · -- what is wanted and missing is added, what is there and not wanted removed
    have hdelta : ∀ had wanted : Prop,
        ((had ∨ wanted ∧ ¬ had) ∧ (had → wanted) ↔ wanted) := by
      intro had wanted
      tauto
    rw [hr₆.links, hr₅.links, hr₄.links, hr₃.links]
    simp only [Set.mem_sdiff, Set.mem_union, mem_labelled, List.mem_filter, Bool.not_eq_true',
      List.contains_eq_mem, decide_eq_false_iff_not, hkeywords, hcategories]
    by_cases hid : id = crate
    · subst hid
      cases l <;> simp [About.of, hdelta]
    · simp [hid]

end Links

/-! ## The crates -/

section Crates

variable {io : Io} {db db' : Db} {c : ℕ × CrateRow} {name registry : String} {p : Publish}

theorem about_of_mem (hc : c ∈ db.crates.rows) :
    db.about c.2.name c.2.registry = db.aboutRow c := by
  unfold Db.about
  have hfind : (db.crates.rows.find? fun r => r.2.name = c.2.name && r.2.registry = c.2.registry) =
      some c := by
    obtain ⟨r, hr⟩ : ∃ r, (db.crates.rows.find? fun r => r.2.name = c.2.name &&
        r.2.registry = c.2.registry) = some r :=
      Option.isSome_iff_exists.mp (List.find?_isSome.mpr ⟨c, hc, by simp⟩)
    have hkey := List.find?_some hr
    rw [Bool.and_eq_true, decide_eq_true_eq, decide_eq_true_eq] at hkey
    rw [hr, Table.eq_of_key (List.mem_of_find?_eq_some hr) hc (Prod.ext hkey.1 hkey.2)]
  rw [hfind]

theorem about_of_absent (h : ∀ c ∈ db.crates.rows, ¬ (c.2.name = name ∧ c.2.registry = registry)) :
    db.about name registry = .nothing := by
  unfold Db.about
  have hfind : (db.crates.rows.find? fun r => r.2.name = name && r.2.registry = registry) = none :=
    List.find?_eq_none.mpr fun c hc => by simpa using h c hc
  rw [hfind]

theorem mem_labels_aboutRow {l : Label} {k : String} :
    k ∈ (db.aboutRow c).labels l ↔ (l, c.1, k) ∈ db.links :=
  List.mem_toFinset

/-- What is kept of a crate is in its row and its links. -/
theorem aboutRow_congr {c' : ℕ × CrateRow} (hrow : c'.2 = c.2)
    (hlinks : ∀ l k, (l, c'.1, k) ∈ db'.links ↔ (l, c.1, k) ∈ db.links) :
    db'.aboutRow c' = db.aboutRow c := by
  ext1
  · exact congrArg CrateRow.description hrow
  · exact congrArg CrateRow.documentation hrow
  · exact congrArg CrateRow.homepage hrow
  · exact congrArg CrateRow.repository hrow
  · ext l k
    rw [mem_labels_aboutRow, mem_labels_aboutRow, hlinks]

/-- Crates of which nothing is known are added. -/
def Bares (db db' : Db) : Prop := ∃ rows, db'.crates.rows = db.crates.rows ++ rows ∧
  ∀ r ∈ rows, ∃ name registry, r.2 = CrateRow.bare name registry

/-- **Crates that are only named change nothing.** -/
theorem about_bares (hl : db.LabelsLinked) (hbares : Bares db db') (hlinks : db'.links = db.links) :
    db'.about = db.about := by
  obtain ⟨rows, hrows, hbare⟩ := hbares
  have hsub : db.crates.rows ⊆ db'.crates.rows := by
    rw [hrows]
    exact List.subset_append_left _ _
  funext name registry
  by_cases h : ∃ c ∈ db.crates.rows, c.2.name = name ∧ c.2.registry = registry
  · obtain ⟨c, hc, rfl, rfl⟩ := h
    rw [about_of_mem hc, about_of_mem (hsub hc)]
    exact aboutRow_congr rfl fun l k => by rw [hlinks]
  · have hno : ∀ c ∈ db.crates.rows, ¬ (c.2.name = name ∧ c.2.registry = registry) :=
      fun c hc hk => h ⟨c, hc, hk⟩
    rw [about_of_absent hno]
    by_cases h' : ∃ c ∈ db'.crates.rows, c.2.name = name ∧ c.2.registry = registry
    · obtain ⟨c, hc, rfl, rfl⟩ := h'
      have hnew := hc
      rw [hrows, List.mem_append] at hnew
      obtain ⟨n, r, hcn⟩ := hbare c (hnew.resolve_left fun hold => h ⟨c, hold, rfl, rfl⟩)
      -- a link is to a crate that was there
      have hfresh : ∀ l k, (l, c.1, k) ∉ db'.links := by
        intro l k hk
        rw [hlinks, mem_links] at hk
        obtain ⟨s, hs, hid, -⟩ := hk
        obtain ⟨c', hc', hid'⟩ := List.mem_map.mp (hl l s hs).1
        have heq : c' = c := Table.eq_of_id (hsub hc') hc (hid'.trans hid)
        exact hno c' hc' (by rw [heq]; exact ⟨rfl, rfl⟩)
      rw [about_of_mem hc]
      ext1
      · exact congrArg CrateRow.description hcn
      · exact congrArg CrateRow.documentation hcn
      · exact congrArg CrateRow.homepage hcn
      · exact congrArg CrateRow.repository hcn
      · ext l k
        rw [mem_labels_aboutRow]
        exact ⟨fun hk => absurd hk (hfresh l k), fun hk => absurd hk (Finset.notMem_empty k)⟩
    · exact about_of_absent fun c hc hk => h' ⟨c, hc, hk⟩

theorem links_of_labels (h : db'.labels = db.labels) : db'.links = db.links := by
  ext ⟨l, id, k⟩
  rw [mem_links, mem_links, h]

theorem bares_getOrInsert (db : Db) (name registry : String) {t}
    (h : (db.crates.getOrInsert (CrateRow.bare name registry)).2 = t) :
    Bares db { db with crates := t } := by
  obtain ⟨r, t', ht, -, -, hrows⟩ := db.crates.getOrInsert_spec (CrateRow.bare name registry)
  rw [ht] at h
  subst h
  rcases hrows with hrows | ⟨rfl, hrows⟩
  · refine ⟨[], ?_, fun r hr => absurd hr List.not_mem_nil⟩
    rw [List.append_nil]
    exact hrows
  · refine ⟨_, hrows, fun r hr => ⟨name, registry, ?_⟩⟩
    rw [List.mem_singleton.mp hr]

/-- The rows of the crates when that of `c` says what `p` does. -/
structure Refreshed (c : ℕ × CrateRow) (p : Publish) (before after : List (ℕ × CrateRow))
    (row : ℕ × CrateRow → CrateRow) : Prop where
  rows : after = before.map fun r => (r.1, row r)
  key : ∀ r, ((row r).name, (row r).registry) = (r.2.name, r.2.registry)
  other : ∀ r, r.1 ≠ c.1 → row r = r.2
  self : row c =
    ⟨c.2.name, c.2.registry, p.description, p.documentation, p.homepage, p.repository⟩

theorem refreshed_refreshCrate (h : refreshCrate io c p db = (.ok (), db')) :
    db'.labels = db.labels ∧ ∃ row, Refreshed c p db.crates.rows db'.crates.rows row := by
  unfold refreshCrate at h
  by_cases hd : c.2.differs p = true
  · rw [if_pos hd] at h
    obtain ⟨-, h⟩ := statement_eq_ok.mp h
    cases h
    exact ⟨rfl, CrateRow.refresh c.1 p, rfl, CrateRow.refresh_key c.1 p, fun r hr => if_neg hr,
      if_pos rfl⟩
  · rw [if_neg hd] at h
    obtain ⟨-, rfl⟩ := Tx.answer_eq_ok.mp h
    simp only [CrateRow.differs, Bool.or_eq_true, bne_iff_ne, ne_eq, not_or, not_not] at hd
    obtain ⟨⟨⟨h1, h2⟩, h3⟩, h4⟩ := hd
    refine ⟨rfl, Prod.snd, (List.map_id _).symm, fun _ => rfl, fun _ _ => rfl, ?_⟩
    rw [h1, h2, h3, h4]

section Refreshed

variable {row : ℕ × CrateRow → CrateRow}

/-- A crate is found by its name where its row was. -/
theorem Refreshed.about (h : Refreshed c p db.crates.rows db'.crates.rows row) {r : ℕ × CrateRow}
    (hr : r ∈ db.crates.rows) :
    db'.about r.2.name r.2.registry = db'.aboutRow (r.1, row r) := by
  have hmem : (r.1, row r) ∈ db'.crates.rows := by
    rw [h.rows]
    exact List.mem_map_of_mem hr
  obtain ⟨hname, hregistry⟩ := Prod.ext_iff.mp (h.key r)
  dsimp only at hname hregistry
  rw [← hname, ← hregistry]
  exact about_of_mem hmem

/-- No crate is added. -/
theorem Refreshed.about_of_absent (h : Refreshed c p db.crates.rows db'.crates.rows row)
    (hno : ∀ r ∈ db.crates.rows, ¬ (r.2.name = name ∧ r.2.registry = registry)) :
    db'.about name registry = .nothing := by
  refine PgIndex.about_of_absent fun r' hr' hk => ?_
  rw [h.rows] at hr'
  obtain ⟨r, hr, rfl⟩ := List.mem_map.mp hr'
  obtain ⟨hname, hregistry⟩ := Prod.ext_iff.mp (h.key r)
  exact hno r hr ⟨hname.symm.trans hk.1, hregistry.symm.trans hk.2⟩

/-- The row that is refreshed, with the labels of the publish. -/
theorem Refreshed.aboutRow_self (h : Refreshed c p db.crates.rows db'.crates.rows row)
    (hlinks : ∀ l k, (l, c.1, k) ∈ db'.links ↔ k ∈ (About.of p).labels l) :
    db'.aboutRow (c.1, row c) = .of p := by
  unfold Db.aboutRow
  simp only [h.self]
  ext1
  · rfl
  · rfl
  · rfl
  · rfl
  · ext l k
    exact List.mem_toFinset.trans (hlinks l k)

/-- **A crate that is refreshed** says what the publish does, and the others what they did. -/
theorem about_refreshed (hc : c ∈ db.crates.rows)
    (hname : c.2.name = p.name) (hregistry : c.2.registry = "")
    (hrows : Refreshed c p db.crates.rows db'.crates.rows row)
    (hlinks : ∀ l id k, (l, id, k) ∈ db'.links ↔
      if id = c.1 then k ∈ (About.of p).labels l else (l, id, k) ∈ db.links) :
    db'.about = db.about.publish p := by
  funext name registry
  unfold Abouts.publish
  by_cases hkey : name = p.name ∧ registry = ""
  · obtain ⟨rfl, rfl⟩ := hkey
    rw [if_pos ⟨rfl, rfl⟩, ← hname, ← hregistry, hrows.about hc]
    refine hrows.aboutRow_self fun l k => ?_
    rw [hlinks, if_pos rfl]
  · rw [if_neg hkey]
    by_cases h : ∃ r ∈ db.crates.rows, r.2.name = name ∧ r.2.registry = registry
    · obtain ⟨r, hr, rfl, rfl⟩ := h
      have hne : r.1 ≠ c.1 := by
        intro hid
        rw [Table.eq_of_id hr hc hid] at hkey
        exact hkey ⟨hname, hregistry⟩
      rw [hrows.about hr, about_of_mem hr, hrows.other r hne]
      refine aboutRow_congr rfl fun l k => ?_
      rw [hlinks, if_neg hne]
    · have hno : ∀ r ∈ db.crates.rows, ¬ (r.2.name = name ∧ r.2.registry = registry) :=
        fun r hr hk => h ⟨r, hr, hk⟩
      rw [about_of_absent hno, hrows.about_of_absent hno]

end Refreshed

theorem Bares.refl (db : Db) : Bares db db :=
  ⟨[], (List.append_nil _).symm, fun _ hr => absurd hr List.not_mem_nil⟩

theorem Bares.trans {db'' : Db} (h : Bares db db') (h' : Bares db' db'') : Bares db db'' := by
  obtain ⟨rows, hrows, hbare⟩ := h
  obtain ⟨rows', hrows', hbare'⟩ := h'
  refine ⟨rows ++ rows', by rw [hrows', hrows, List.append_assoc], fun r hr => ?_⟩
  exact (List.mem_append.mp hr).elim (hbare r) (hbare' r)

/-- The crates of the dependencies. -/
theorem bares_insertDependencies {versionId : ℕ} {deps : List PublishDependency}
    (h : Tx.each (fun d => statement io (.insertDependency d) (insertDependency versionId d)) deps
      db = (.ok (), db')) : Bares db db' ∧ db'.labels = db.labels := by
  refine Tx.each_rel (R := fun s t => Bares s t ∧ t.labels = s.labels)
    (fun s => ⟨Bares.refl s, rfl⟩) (fun hst htu => ⟨hst.1.trans htu.1, htu.2.trans hst.2⟩)
    (fun d s t hstep => ?_) h
  obtain ⟨-, hstep⟩ := statement_eq_ok.mp hstep
  unfold insertDependency at hstep
  cases hstep
  exact ⟨bares_getOrInsert s d.name (d.registry.getD "") rfl, rfl⟩

/-- **A transaction that goes through.** -/
theorem about_insertRelease {ck : Checksum} (hl : db.LabelsLinked)
    (h : insertRelease io p ck db = (.ok (), db')) : db'.about = db.about.publish p := by
  obtain ⟨c, db₁, h₁, h⟩ := Tx.bind_eq_ok.mp h
  obtain ⟨_, db₂, h₂, h⟩ := Tx.bind_eq_ok.mp h
  obtain ⟨_, db₃, h₃, h⟩ := Tx.bind_eq_ok.mp h
  obtain ⟨versionId, db₄, h₄, h⟩ := Tx.bind_eq_ok.mp h
  obtain ⟨_, db₅, h₅, h₆⟩ := Tx.bind_eq_ok.mp h
  obtain ⟨-, h₁⟩ := statement_eq_ok.mp h₁
  have hl₁ := (prepared_getOrInsertCrate h₁).1.labels hl
  obtain ⟨hc, hname, hregistry⟩ : c ∈ db₁.crates.rows ∧ c.2.name = p.name ∧ c.2.registry = "" := by
    obtain ⟨r, t, ht, hkey, hmem, -⟩ := db.crates.getOrInsert_spec (CrateRow.bare p.name "")
    unfold getOrInsertCrate at h₁
    rw [ht] at h₁
    cases h₁
    exact ⟨hmem, Prod.ext_iff.mp hkey⟩
  have hbares₁ : Bares db db₁ ∧ db₁.labels = db.labels := by
    unfold getOrInsertCrate at h₁
    cases h₁
    exact ⟨bares_getOrInsert db p.name "" rfl, rfl⟩
  have habout₁ := about_bares hl hbares₁.1 (links_of_labels hbares₁.2)
  obtain ⟨hlabels₂, row, hrows₂⟩ := refreshed_refreshCrate h₂
  have hp₂ := prepared_refreshCrate h₂
  have hids : c.1 ∈ db₂.crates.ids := ids_subset hp₂.named (List.mem_map_of_mem hc)
  obtain ⟨hcrates₃, hl₃, hlinks₃⟩ := links_refreshLabels (hp₂.labels hl₁) hids h₃
  rw [← hcrates₃] at hrows₂
  rw [links_of_labels hlabels₂] at hlinks₃
  have habout₃ := about_refreshed hc hname hregistry hrows₂ hlinks₃
  obtain ⟨-, t, rfl, -⟩ := insertVersion_eq_ok h₄
  obtain ⟨hbares₅, hlabels₅⟩ := bares_insertDependencies h₅
  obtain ⟨_, t', rfl, -⟩ := insertFeatures_spec h₆
  have hbares : Bares db₃ { db₅ with features := t' } := hbares₅
  rw [about_bares hl₃ hbares (links_of_labels hlabels₅), habout₃, habout₁]

end Crates

/-! ## Runs -/

section Runs

open FsIndex (Outcome)

/-- The call answers that it is done. -/
def Done : Option Outcome → Bool
  | some (.ok .done) => true
  | _ => false

/-- What the call publishes. -/
def Call.published (c : Call) : Option Publish :=
  match c.op with
  | .publish p _ => some p
  | _ => none

/-- The publishes that were committed, of any crate. -/
def committed (calls : List Call) : List Publish :=
  (Run.accepted step (fun r => Done r = true) Db.empty calls).filterMap Call.published

variable {db : Db} {c : Call} {p : Publish} {ck : Checksum}

theorem about_rollback (db new : Db) : (db.rollback new).about = db.about := rfl

theorem about_setYank (db : Db) (crateName version : String) (yanked : Bool) :
    (db.setYank crateName version yanked).about = db.about := rfl

theorem step_of_publish (hop : c.op = .publish p ck) :
    step db c = (some ((publish c.io db p ck (fun w => (c.endStep, w)) ()).1.map fun _ => .done),
      (publish c.io db p ck (fun w => (c.endStep, w)) ()).2.1) := by
  unfold step
  rw [hop]

/-- **A publish that is committed.** -/
theorem about_committed (hl : db.LabelsLinked) (hop : c.op = .publish p ck)
    (hdone : Done (step db c).1 = true) : (step db c).2.about = db.about.publish p := by
  rw [step_of_publish hop] at hdone ⊢
  rcases publish_cases c.io db p ck (fun w => (c.endStep, w)) () with ⟨hok, -⟩ | ⟨⟨e, he⟩, -⟩
  · exact about_insertRelease hl (insertRelease_of_publish hok)
  · rw [he] at hdone
    cases hdone

/-- **A call that is no publish, or is rolled back.** -/
theorem about_unchanged (h : c.published = none ∨ Done (step db c).1 = false) :
    (step db c).2.about = db.about := by
  cases hop : c.op with
  | publish p ck =>
    have hpublished : c.published = some p := by
      unfold Call.published
      rw [hop]
    rw [hpublished] at h
    have hdone := h.resolve_left (by simp)
    rw [step_of_publish hop] at hdone ⊢
    rcases publish_cases c.io db p ck (fun w => (c.endStep, w)) () with
      ⟨hok, -⟩ | ⟨-, hdb | ⟨new, hdb⟩⟩
    · rw [hok] at hdone
      cases hdone
    · exact congrArg Db.about hdb
    · exact (congrArg Db.about hdb).trans (about_rollback db new)
  | yank crateName version flag =>
    have hstep : (step db c).2 = (yankInner c.io db crateName version flag).2 := by
      unfold step
      rw [hop]
    rw [hstep]
    rcases yankInner_cases c.io db crateName version flag with hdb | hdb
    · rw [hdb]
    · rw [hdb, about_setYank]
  | confirm crateName version =>
    have hstep : (step db c).2 = db := by
      unfold step
      rw [hop]
    rw [hstep]

/-- What is kept of the crates after these publishes. -/
def Abouts.after (publishes : List Publish) : Abouts :=
  publishes.foldl Abouts.publish fun _ _ => .nothing

/-- A consistent database that says what the publishes among these calls do. -/
structure Says (db : Db) (done : List Call) : Prop where
  consistent : Consistent db
  about : db.about = Abouts.after (done.filterMap Call.published)

theorem Says.done {done : List Call} (h : Says db done) (hdone : Done (step db c).1 = true) :
    Says (step db c).2 (done ++ [c]) := by
  refine ⟨(move_step db c).consistent h.consistent, ?_⟩
  rw [List.filterMap_append]
  cases hp : c.published with
  | none => rw [about_unchanged (Or.inl hp), h.about, List.filterMap_cons_none hp,
      List.filterMap_nil, List.append_nil]
  | some p =>
    obtain ⟨ck, hop⟩ : ∃ ck, c.op = .publish p ck := by
      unfold Call.published at hp
      split at hp
      · rename_i q ck hop
        cases hp
        exact ⟨ck, hop⟩
      · cases hp
    rw [about_committed h.consistent.labels hop hdone, h.about, List.filterMap_cons_some hp]
    unfold Abouts.after
    rw [List.filterMap_nil, List.foldl_append]
    rfl

theorem Says.refused {done : List Call} (h : Says db done) (hdone : ¬ Done (step db c).1 = true) :
    Says (step db c).2 done := by
  rw [Bool.not_eq_true] at hdone
  refine ⟨(move_step db c).consistent h.consistent, ?_⟩
  rw [about_unchanged (Or.inr hdone), h.about]

/-- **After every run** the tables say what the committed publishes do. -/
theorem says_final (calls : List Call) : Says (Run.final step Db.empty calls)
    (Run.accepted step (fun r => Done r = true) Db.empty calls) := by
  change Says _ ([] ++ _)
  exact Run.final_accepted (I := Says) (fun _ _ _ h hdone => h.done hdone)
    (fun _ _ _ h hdone => h.refused hdone) ⟨consistent_empty, rfl⟩ calls

theorem after_concat (publishes : List Publish) (p : Publish) :
    Abouts.after (publishes ++ [p]) = (Abouts.after publishes).publish p := by
  unfold Abouts.after
  rw [List.foldl_append]
  rfl

/-- The last publish of a crate decides. -/
theorem after_eq (publishes : List Publish) (name : String) :
    Abouts.after publishes name "" =
      ((publishes.filter (·.name = name)).getLast?.map About.of).getD .nothing := by
  induction publishes using List.reverseRecOn with
  | nil => rfl
  | append_singleton publishes p ih =>
    rw [after_concat, List.filter_append]
    unfold Abouts.publish
    by_cases h : p.name = name
    · subst h
      rw [if_pos ⟨rfl, rfl⟩, List.filter_cons_of_pos (by simp), List.filter_nil,
        List.getLast?_concat]
      rfl
    · rw [if_neg fun hk => h hk.1.symm, List.filter_cons_of_neg (by simpa using h), List.filter_nil,
        List.append_nil, ih]

/-- **Crate metadata reflects the last publish.** After every run of calls, some of which fail, what
is kept of a crate is what its last committed publish says, and nothing without one. From there
a publish that is committed leaves what it says of its crate and what was there of every other one,
and a publish that is rolled back, like every other call, leaves all of it. -/
theorem about_reflects_last_publish (calls : List Call) :
    (∀ name, (Run.final step Db.empty calls).about name "" =
      (((committed calls).filter (·.name = name)).getLast?.map About.of).getD .nothing) ∧
    ∀ c : Call,
      (∀ p ck, c.op = .publish p ck → Done (step (Run.final step Db.empty calls) c).1 = true →
        (step (Run.final step Db.empty calls) c).2.about p.name "" = .of p ∧
        ∀ name registry, (name, registry) ≠ (p.name, "") →
          (step (Run.final step Db.empty calls) c).2.about name registry =
            (Run.final step Db.empty calls).about name registry) ∧
      (c.published = none ∨ Done (step (Run.final step Db.empty calls) c).1 = false →
        (step (Run.final step Db.empty calls) c).2.about =
          (Run.final step Db.empty calls).about) := by
  have hfinal := says_final calls
  refine ⟨fun name => ?_, fun c => ⟨fun p ck hop hdone => ?_, about_unchanged⟩⟩
  · rw [hfinal.about]
    exact after_eq _ name
  · rw [about_committed hfinal.consistent.labels hop hdone]
    refine ⟨if_pos ⟨rfl, rfl⟩, fun name registry hne => if_neg fun hk => hne ?_⟩
    exact Prod.ext hk.1 hk.2

/-- `foo` with a keyword that is listed twice, and then with another. -/
def retagged : List Call :=
  [{ foo with keywords := ["a", "a", "b"] },
    { foo with vers := Version.new 0 0 1, keywords := ["b", "c"] }].map fun p =>
      ⟨{}, .ok (), .publish p (abcHash [])⟩

/-- The keywords of the last publish are those of the crate. -/
theorem about_retagged :
    ((Run.final step Db.empty retagged).about "foo" "").labels .keyword = {"b", "c"} := by
  rw [(about_reflects_last_publish retagged).1 "foo"]
  decide +kernel

end Runs

end PgIndex

end Freighter
