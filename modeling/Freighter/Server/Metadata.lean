import Freighter.Server.Routes

/-!
# Corrected entries

`ensure_correct_metadata` takes the actions out of an entry that refer to nothing, and makes what
they named an empty feature.

* `Refers`, `Closed`; `lookup_features`, `lookup_features2`: what the correction does to the maps.
* `ensureCorrectMetadata_of_closed`, `closed_ensureCorrectMetadata`: it does nothing to a closed
  entry, and gives one.
* **`ensureCorrectMetadata_corrected`**: it closes the references and does nothing more;
  **`closed_getSparseMeta`**: what is served is closed.
-/

namespace Freighter

namespace Routes

/-! ## References -/

def HasFeature (e : CrateVersion) (name : String) : Prop := name ∈ e.features ∨ name ∈ e.features2

/-- The action is a feature, or its name is the name of a dependency. -/
def Refers (e : CrateVersion) (action : String) : Prop :=
  HasFeature e action ∨ ∃ d ∈ e.deps, d.name = actionName action

/-- One of the features has the action. -/
def Lists (e : CrateVersion) (action : String) : Prop :=
  ∃ name actions, action ∈ actions ∧
    (e.features.lookup name = some actions ∨ e.features2.lookup name = some actions)

/-- **Every action refers to something.** -/
def Closed (e : CrateVersion) : Prop := ∀ action, Lists e action → Refers e action

variable {e : CrateVersion} {name action : String}

theorem mem_validFeatures : name ∈ validFeatures e ↔ HasFeature e name := by
  rw [validFeatures, List.mem_append, ← AList.mem_keys, ← AList.mem_keys]
  rfl

theorem retains_iff : retains e action = true ↔ Refers e action := by
  rw [retains, Bool.or_eq_true, decide_eq_true_iff, mem_validFeatures, List.any_eq_true]
  simp only [beq_iff_eq]
  rfl

theorem mem_missingFeatures : name ∈ missingFeatures e ↔
    ∃ action, Lists e action ∧ ¬ Refers e action ∧ ¬ HasFeature e (actionName action) ∧
      actionName action = name := by
  have hlists : ∀ action, action ∈ (e.features.iter ++ e.features2.iter).flatMap Prod.snd ↔
      Lists e action := by
    intro action
    simp only [List.mem_flatMap, List.mem_append, Prod.exists, HashMap.mem_iter, Lists]
    exact exists_congr fun _ => exists_congr fun _ => and_comm
  rw [missingFeatures, List.mem_map]
  refine exists_congr fun action => ?_
  rw [List.mem_filter, hlists, Bool.and_eq_true, Bool.not_eq_true', ← Bool.not_eq_true, retains_iff,
    decide_eq_true_iff, mem_validFeatures, and_assoc, and_assoc]

/-! ## The maps -/

theorem lookup_orInsertNew (m : HashMap String (List String)) (f : String) :
    (orInsertNew m f).lookup name = (m.lookup name).or (if name = f then some [] else none) := by
  unfold orInsertNew
  split_ifs with hf hn hn
  · -- the feature is there
    obtain ⟨actions, hactions⟩ := Option.isSome_iff_exists.mp (AList.lookup_isSome.mpr hf)
    rw [hn, hactions, Option.some_or]
  · rw [Option.or_none]
  · rw [hn, AList.lookup_insert, AList.lookup_eq_none.mpr hf, Option.none_or]
  · rw [AList.lookup_insert_ne hn, Option.or_none]

theorem lookup_foldl_orInsertNew (missing : List String) (m : HashMap String (List String)) :
    (missing.foldl orInsertNew m).lookup name =
      (m.lookup name).or (if name ∈ missing then some [] else none) := by
  induction missing generalizing m with
  | nil => simp
  | cons f missing ih =>
    rw [List.foldl_cons, ih, lookup_orInsertNew, Option.or_assoc]
    by_cases hf : name = f <;> simp [hf]

theorem lookup_features : (ensureCorrectMetadata e).features.lookup name =
    ((e.features.lookup name).map (List.filter (retains e))).or
      (if name ∈ missingFeatures e then some [] else none) := by
  rw [ensureCorrectMetadata, lookup_foldl_orInsertNew, HashMap.lookup_collect_map]

theorem lookup_features2 : (ensureCorrectMetadata e).features2.lookup name =
    (e.features2.lookup name).map (List.filter (retains e)) :=
  HashMap.lookup_collect_map _ _ _

theorem hasFeature_ensureCorrectMetadata :
    HasFeature (ensureCorrectMetadata e) name ↔ HasFeature e name ∨ name ∈ missingFeatures e := by
  have hmap : ∀ (m : HashMap String (List String)), name ∈ m ↔ (m.lookup name).isSome = true :=
    fun m => AList.lookup_isSome.symm
  simp only [HasFeature, hmap, lookup_features, lookup_features2, Option.isSome_or,
    Option.isSome_map, Bool.or_eq_true]
  by_cases hm : name ∈ missingFeatures e <;> simp [hm]

/-- What an action refers to stays. -/
theorem Refers.ensureCorrectMetadata (h : Refers e action) :
    Refers (ensureCorrectMetadata e) action :=
  h.imp_left fun hf => hasFeature_ensureCorrectMetadata.mpr (Or.inl hf)

/-- The actions that are left are those that refer to something. -/
theorem lists_ensureCorrectMetadata :
    Lists (ensureCorrectMetadata e) action → Lists e action ∧ Refers e action := by
  rintro ⟨name, actions, hmem, h | h⟩
  · rw [lookup_features] at h
    cases hl : e.features.lookup name with
    | none =>
      -- an added feature has no actions
      rw [hl, Option.map_none, Option.none_or] at h
      split_ifs at h
      cases h
      cases hmem
    | some original =>
      rw [hl, Option.map_some, Option.some_or] at h
      cases h
      have hfilter := List.mem_filter.mp hmem
      exact ⟨⟨name, original, hfilter.1, Or.inl hl⟩, retains_iff.mp hfilter.2⟩
  · rw [lookup_features2] at h
    obtain ⟨original, hl, rfl⟩ := Option.map_eq_some_iff.mp h
    have hfilter := List.mem_filter.mp hmem
    exact ⟨⟨name, original, hfilter.1, Or.inr hl⟩, retains_iff.mp hfilter.2⟩

/-- **The correction closes the references.** -/
theorem closed_ensureCorrectMetadata (e : CrateVersion) : Closed (ensureCorrectMetadata e) :=
  fun _ h => (lists_ensureCorrectMetadata h).2.ensureCorrectMetadata

/-- **The correction does nothing to a closed entry.** -/
theorem ensureCorrectMetadata_of_closed (h : Closed e) : ensureCorrectMetadata e = e := by
  have hmissing : missingFeatures e = [] := by
    refine List.eq_nil_iff_forall_not_mem.mpr fun name hname => ?_
    obtain ⟨action, hlists, hrefers, -⟩ := mem_missingFeatures.mp hname
    exact hrefers (h action hlists)
  have hretain : ∀ m : HashMap String (List String),
      (∀ name actions, m.lookup name = some actions → ∀ action ∈ actions, Lists e action) →
      HashMap.collect (m.iter.map fun x => (x.1, x.2.filter (retains e))) = m := by
    intro m hm
    refine (congrArg HashMap.collect ?_).trans (HashMap.collect_iter m)
    refine (List.map_congr_left fun x hx => ?_).trans (List.map_id _)
    have hfilter : x.2.filter (retains e) = x.2 := List.filter_eq_self.mpr fun action ha =>
      retains_iff.mpr (h action (hm x.1 x.2 (HashMap.mem_iter.mp hx) action ha))
    rw [hfilter]
    rfl
  unfold ensureCorrectMetadata
  rw [hmissing]
  simp only [List.foldl_nil]
  rw [hretain e.features fun name actions hl action ha => ⟨name, actions, ha, Or.inl hl⟩,
    hretain e.features2 fun name actions hl action ha => ⟨name, actions, ha, Or.inr hl⟩]

/-! ## The whole correction -/

/-- What is left of the actions of a feature: some of them, in their order. Those that are gone
refer to nothing, and what they name is a feature now. -/
structure Pruned (e e' : CrateVersion) (actions left : List String) : Prop where
  sublist : left.Sublist actions
  gone : ∀ action, left.count action < actions.count action →
    ¬ Refers e action ∧ HasFeature e' (actionName action)

/-- **The references of an entry are closed, and nothing else changes.** -/
structure Corrected (e e' : CrateVersion) : Prop where
  closed : Closed e'
  features : ∀ name actions, e.features.lookup name = some actions →
    ∃ left, e'.features.lookup name = some left ∧ Pruned e e' actions left
  features2 : ∀ name actions, e.features2.lookup name = some actions →
    ∃ left, e'.features2.lookup name = some left ∧ Pruned e e' actions left
  added : ∀ name, name ∉ e.features → name ∈ e'.features → e'.features.lookup name = some [] ∧
    ¬ HasFeature e name ∧ ∃ action, Lists e action ∧ ¬ Refers e action ∧ actionName action = name
  added2 : ∀ name, name ∉ e.features2 → name ∉ e'.features2
  fields : e' = { e with features := e'.features, features2 := e'.features2 }

theorem pruned_filter {actions : List String} (h : ∀ action ∈ actions, Lists e action) :
    Pruned e (ensureCorrectMetadata e) actions (actions.filter (retains e)) where
  sublist := List.filter_sublist
  gone action hcount := by
    have hrefers : ¬ Refers e action := by
      intro hr
      rw [List.count_filter (retains_iff.mpr hr)] at hcount
      exact lt_irrefl _ hcount
    have hmem : action ∈ actions := List.count_pos_iff.mp (Nat.zero_lt_of_lt hcount)
    refine ⟨hrefers, hasFeature_ensureCorrectMetadata.mpr ?_⟩
    by_cases hf : HasFeature e (actionName action)
    · exact Or.inl hf
    · exact Or.inr (mem_missingFeatures.mpr ⟨action, h action hmem, hrefers, hf, rfl⟩)

theorem corrected (e : CrateVersion) : Corrected e (ensureCorrectMetadata e) where
  closed := closed_ensureCorrectMetadata e
  features name actions h := by
    refine ⟨actions.filter (retains e), ?_,
      pruned_filter fun action ha => ⟨name, actions, ha, Or.inl h⟩⟩
    rw [lookup_features, h, Option.map_some, Option.some_or]
  features2 name actions h := by
    refine ⟨actions.filter (retains e), ?_,
      pruned_filter fun action ha => ⟨name, actions, ha, Or.inr h⟩⟩
    rw [lookup_features2, h, Option.map_some]
  added name hn hm := by
    have hlookup : (ensureCorrectMetadata e).features.lookup name =
        if name ∈ missingFeatures e then some [] else none := by
      rw [lookup_features, AList.lookup_eq_none.mpr hn, Option.map_none, Option.none_or]
    have hmissing : name ∈ missingFeatures e := by
      by_contra hmissing
      rw [if_neg hmissing, AList.lookup_eq_none] at hlookup
      exact hlookup hm
    obtain ⟨action, hlists, hrefers, hfeature, rfl⟩ := mem_missingFeatures.mp hmissing
    exact ⟨hlookup.trans (if_pos hmissing), hfeature, action, hlists, hrefers, rfl⟩
  added2 name hn := by
    rw [← AList.lookup_eq_none, lookup_features2, AList.lookup_eq_none.mpr hn, Option.map_none]
  fields := rfl

/-- **The correction closes the references of every entry and does nothing more**, and a second one
does nothing at all. -/
theorem ensureCorrectMetadata_corrected (entries : List CrateVersion) :
    List.Forall₂ Corrected entries (entries.map ensureCorrectMetadata) ∧
      (entries.map ensureCorrectMetadata).map ensureCorrectMetadata =
        entries.map ensureCorrectMetadata := by
  constructor
  · rw [List.forall₂_map_right_iff, List.forall₂_same]
    exact fun e _ => corrected e
  · rw [List.map_map]
    refine List.map_congr_left fun e _ => ?_
    exact ensureCorrectMetadata_of_closed (closed_ensureCorrectMetadata e)

/-- **The entries that are served are closed.** -/
theorem closed_getSparseMeta {α ι σ ε : Type} {cfg : ServiceConfig} {X : Extractors}
    {A : AuthProvider α ε} {I : IndexProvider ι} {headers : HeaderMap} {path : String}
    {s t : α × ι × σ} {entries : List CrateVersion}
    (h : getSparseMeta cfg X A I headers path s = (.ok entries, t)) :
    ∀ e ∈ entries, Closed e := by
  unfold getSparseMeta at h
  obtain ⟨crateIndexPath, u, -, h⟩ := Tx.bind_eq_ok.mp h
  cases hsplit : rsplitOnce crateIndexPath with
  | none =>
    rw [hsplit] at h
    cases h
  | some parts =>
    rw [hsplit] at h
    obtain ⟨-, u', -, h⟩ := Tx.bind_eq_ok.mp h
    obtain ⟨found, u'', -, h⟩ := Tx.bind_eq_ok.mp h
    cases h
    intro e he
    obtain ⟨original, -, rfl⟩ := List.mem_map.mp he
    exact closed_ensureCorrectMetadata original

end Routes

end Freighter
