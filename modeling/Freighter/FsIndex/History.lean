import Freighter.FsIndex.Machine

/-!
# The history of the index files

The calls that write take effect one at a time, in the order of their puts.

* `Effect`: what a call that writes does to the files, **`effect_of_writes`**;
* `Distinct`, `Grows`: no file has two entries of one version, and apart from the flags of its
  entries a file only grows;
* **`files_eq_foldl`**: the files after a run are those of its writers, run one after another;
* **`linearizable`**: no update is lost, made twice or mixed up with another.
-/

namespace Freighter

namespace FsIndex

variable (L : Libs)

/-! ## Files as contents -/

/-- The contents of a file that is there and parses. -/
def contentsOf (files : Files) (path : String) : Option Contents :=
  (files path).bind fun data => (deserializeData L data).toOption

/-- The entries of a file; an absent file has none. -/
def HasEntries (files : Files) (path : String) (entries : List CrateVersion) : Prop :=
  files path = none ∧ entries = [] ∨ ∃ q, contentsOf L files path = some (entries, q)

/-- What a call that writes does. -/
def Effect (before after : Files) (op : IndexOp) : Prop :=
  (∀ path, path ≠ op.relPath → after path = before path) ∧
  match op with
  | .publish p tarballChecksum =>
    ∃ entries, HasEntries L before op.relPath entries ∧ (∀ v ∈ entries, v.vers ≠ p.vers) ∧
      contentsOf L after op.relPath = some (entries ++ [release p tarballChecksum], some p)
  | .yank _ version flag =>
    ∃ older v newer q, contentsOf L before op.relPath = some (older ++ v :: newer, q) ∧
      v.vers = version ∧ (∀ u ∈ newer, u.vers ≠ version) ∧
      contentsOf L after op.relPath = some (older ++ { v with yanked := flag } :: newer, q)
  | .confirm _ _ => False

/-- No file has two entries of one version. -/
def Distinct (files : Files) : Prop :=
  ∀ path c, contentsOf L files path = some c → (c.1.map CrateVersion.vers).Nodup

/-- The entry, but for its flag. -/
def unflagged (v : CrateVersion) : CrateVersion := { v with yanked := false }

/-- The entry of a call that published has its version and its checksum. -/
theorem of_unflagged_eq_release {v : CrateVersion} {p : Publish} {ck : Checksum}
    (h : unflagged v = release p ck) :
    v.name = p.name ∧ v.vers = p.vers ∧ v.cksum = ck :=
  ⟨congrArg CrateVersion.name h, congrArg CrateVersion.vers h, congrArg CrateVersion.cksum h⟩

/-- Files keep their entries in order, but for their flags, and get new ones behind them. -/
def Grows (before after : Files) : Prop :=
  ∀ path c, contentsOf L before path = some c →
    ∃ c', contentsOf L after path = some c' ∧
      c.1.map unflagged <+: c'.1.map unflagged

variable {L}

section Contents

variable {files : Files} {path : String} {c : Contents}

theorem contentsOf_eq_some : contentsOf L files path = some c ↔
    ∃ data, files path = some data ∧ deserializeData L data = .ok c := by
  unfold contentsOf
  rw [Option.bind_eq_some_iff]
  refine exists_congr fun data => and_congr_right fun _ => ?_
  cases deserializeData L data with
  | error e => simp [Except.toOption]
  | ok c' => simp [Except.toOption]

theorem deserialized_ok : deserialized L (pullFile false files path) = .ok c ↔
    contentsOf L files path = some c := by
  rw [contentsOf_eq_some]
  unfold pullFile
  cases files path with
  | none => simp [deserialized]
  | some data => simp [deserialized]

/-- A version that a file lacks is accepted. -/
theorem accepts_of_contentsOf {p : Publish} {m : CrateMetaPath} (hm : accessCrate p.name = .ok m)
    (hc : contentsOf L files m.relPath = some c) (hlacks : ∀ v ∈ c.1, v.vers ≠ p.vers) :
    Accepts L {} files p := by
  obtain ⟨data, hdata, hparse⟩ := contentsOf_eq_some.mp hc
  refine ⟨m, hm, Or.inr ⟨data, c, ?_, hparse, hlacks⟩⟩
  simp [pullFile, hdata]

theorem contentsOf_update_self : contentsOf L
    (Function.update files path (some (serializeData L c.1 c.2))) path = some c := by
  rw [contentsOf_eq_some]
  exact ⟨_, Function.update_self _ _ _, deserializeData_serializeData L c.1 c.2⟩

theorem contentsOf_congr {files' : Files} (h : files' path = files path) :
    contentsOf L files' path = contentsOf L files path := by
  unfold contentsOf
  rw [h]

theorem lacks_of_publishContents {p : Publish} {ck : Checksum}
    (h : publishContents L p ck (pullFile false files path) = .ok c) :
    ∃ entries, HasEntries L files path entries ∧ (∀ v ∈ entries, v.vers ≠ p.vers) ∧
      c = (entries ++ [release p ck], some p) := by
  unfold publishContents at h
  cases hd : deserialized L (pullFile false files path) with
  | error e =>
    rw [hd] at h
    cases e with
    | notFound =>
      have habsent : files path = none := by
        rw [deserialized_notFound] at hd
        unfold pullFile at hd
        cases hf : files path with
        | none => rfl
        | some data => rw [hf] at hd; cases hd
      cases h
      exact ⟨[], Or.inl ⟨habsent, rfl⟩, by simp, rfl⟩
    | _ => cases h
  | ok q =>
    rw [hd] at h
    by_cases hany : q.1.any (·.vers = p.vers) = true
    · simp only [hany, if_true] at h
      cases h
    · simp only [hany] at h
      cases h
      refine ⟨q.1, Or.inr ⟨q.2, deserialized_ok.mp hd⟩, fun v hv hvers => ?_, rfl⟩
      exact hany (List.any_eq_true.mpr ⟨v, hv, by simpa using hvers⟩)

theorem yankLast_none {version : Version} {flag : Bool} {entries : List CrateVersion}
    (h : yankLast version flag entries = none) : ∀ v ∈ entries, v.vers ≠ version := by
  induction entries with
  | nil => simp
  | cons v vs ih =>
    simp only [yankLast] at h
    cases hvs : yankLast version flag vs with
    | some vs' => rw [hvs] at h; cases h
    | none =>
      rw [hvs] at h
      by_cases hv : v.vers = version
      · simp only [hv, if_true] at h
        cases h
      · exact List.forall_mem_cons.mpr ⟨hv, ih hvs⟩

theorem yankLast_some {version : Version} {flag : Bool} {entries entries' : List CrateVersion}
    (h : yankLast version flag entries = some entries') :
    ∃ older v newer, entries = older ++ v :: newer ∧ v.vers = version ∧
      (∀ u ∈ newer, u.vers ≠ version) ∧
      entries' = older ++ { v with yanked := flag } :: newer := by
  induction entries generalizing entries' with
  | nil => cases h
  | cons v vs ih =>
    simp only [yankLast] at h
    cases hvs : yankLast version flag vs with
    | some vs' =>
      rw [hvs] at h
      cases h
      obtain ⟨older, u, newer, rfl, hu, hn, rfl⟩ := ih hvs
      exact ⟨v :: older, u, newer, rfl, hu, hn, rfl⟩
    | none =>
      rw [hvs] at h
      by_cases hv : v.vers = version
      · simp only [if_pos hv, Option.some.injEq] at h
        exact ⟨[], v, vs, rfl, hv, yankLast_none hvs, h.symm⟩
      · simp only [if_neg hv, reduceCtorEq] at h

/-- **The effect of a put.** -/
theorem effect_of_writes {op : IndexOp}
    (h : op.Writes L (pullFile false files op.relPath) c) :
    Effect L files (Function.update files op.relPath (some (serializeData L c.1 c.2))) op := by
  refine ⟨fun path hne => Function.update_of_ne hne _ _, ?_⟩
  cases op with
  | publish p ck =>
    obtain ⟨entries, h1, h2, rfl⟩ := lacks_of_publishContents h
    exact ⟨entries, h1, h2, contentsOf_update_self⟩
  | yank crateName version flag =>
    change yankContents L version flag _ = .ok c at h
    unfold yankContents at h
    cases hd : deserialized L (pullFile false files (IndexOp.yank crateName version flag).relPath)
    with
    | error e => rw [hd] at h; cases h
    | ok q =>
      rw [hd] at h
      simp only at h
      cases hy : yankLast version flag q.1 with
      | none => rw [hy] at h; cases h
      | some entries =>
        rw [hy] at h
        cases h
        obtain ⟨older, v, newer, hq, hv, hn, rfl⟩ := yankLast_some hy
        refine ⟨older, v, newer, q.2, ?_, hv, hn, contentsOf_update_self⟩
        rw [← hq]
        exact deserialized_ok.mp hd
  | confirm crateName version => exact h.elim

end Contents

/-! ## What every effect preserves -/

section Effect

variable {before after : Files} {op : IndexOp}

theorem contentsOf_of_hasEntries {path : String} {entries : List CrateVersion} {c : Contents}
    (h : HasEntries L before path entries) (hc : contentsOf L before path = some c) :
    c.1 = entries := by
  rcases h with ⟨hnone, rfl⟩ | ⟨q, hq⟩
  · obtain ⟨data, hdata, -⟩ := contentsOf_eq_some.mp hc
    rw [hnone] at hdata
    cases hdata
  · rw [hc] at hq
    cases hq
    rfl

theorem entries_of_absent {path : String} {entries : List CrateVersion}
    (h : HasEntries L before path entries) (hnone : before path = none) : entries = [] := by
  rcases h with ⟨-, hnil⟩ | ⟨q, hq⟩
  · exact hnil
  · obtain ⟨data, hdata, -⟩ := contentsOf_eq_some.mp hq
    rw [hnone] at hdata
    cases hdata

theorem Effect.distinct (h : Effect L before after op) (hd : Distinct L before) :
    Distinct L after := by
  intro path c hc
  by_cases hp : path = op.relPath
  · rw [hp] at hc
    cases op with
    | publish p ck =>
      obtain ⟨entries, hb, hlacks, ha⟩ := h.2
      rw [ha] at hc
      cases hc
      have hnodup : (entries.map CrateVersion.vers).Nodup := by
        rcases hb with ⟨-, rfl⟩ | ⟨q, hq⟩
        · exact List.nodup_nil
        · exact hd _ _ hq
      rw [List.map_append, List.map_singleton]
      refine hnodup.append (List.nodup_singleton _) ?_
      rw [List.disjoint_singleton]
      intro hm
      obtain ⟨v, hv, hvers⟩ := List.mem_map.mp hm
      exact hlacks v hv hvers
    | yank crateName version flag =>
      obtain ⟨older, v, newer, q, hb, -, -, ha⟩ := h.2
      rw [ha] at hc
      cases hc
      have := hd _ _ hb
      simpa using this
    | confirm crateName version => exact h.2.elim
  · rw [contentsOf_congr (h.1 path hp)] at hc
    exact hd path c hc

/-- An entry after a put is one of before, up to its flag, or the entry of the publish. -/
theorem Effect.entry (h : Effect L before after op) {path : String} {c : Contents}
    {v : CrateVersion} (hc : contentsOf L after path = some c) (hv : v ∈ c.1) :
    (∃ c₀ v₀, contentsOf L before path = some c₀ ∧ v₀ ∈ c₀.1 ∧ unflagged v = unflagged v₀) ∨
      ∃ p ck, op = .publish p ck ∧ path = op.relPath ∧ v = release p ck := by
  by_cases hp : path = op.relPath
  · rw [hp] at hc ⊢
    cases op with
    | publish p ck =>
      obtain ⟨entries, hb, -, ha⟩ := h.2
      cases ha.symm.trans hc
      rcases List.mem_append.mp hv with hv | hv
      · rcases hb with ⟨-, rfl⟩ | ⟨q, hq⟩
        · cases hv
        · exact Or.inl ⟨_, v, hq, hv, rfl⟩
      · exact Or.inr ⟨p, ck, rfl, rfl, List.mem_singleton.mp hv⟩
    | yank crateName version flag =>
      obtain ⟨older, u, newer, q, hb, -, -, ha⟩ := h.2
      cases ha.symm.trans hc
      rcases List.mem_append.mp hv with hv | hv
      · exact Or.inl ⟨_, v, hb, List.mem_append_left _ hv, rfl⟩
      · rcases List.mem_cons.mp hv with rfl | hv
        · exact Or.inl ⟨_, u, hb, by simp, rfl⟩
        · exact Or.inl ⟨_, v, hb, List.mem_append_right _ (List.mem_cons_of_mem _ hv), rfl⟩
    | confirm crateName version => exact h.2.elim
  · rw [contentsOf_congr (h.1 path hp)] at hc
    exact Or.inl ⟨c, v, hc, hv, rfl⟩

theorem Grows.refl (files : Files) : Grows L files files :=
  fun _ c hc => ⟨c, hc, List.prefix_refl _⟩

theorem Grows.trans {files files' files'' : Files} (h : Grows L files files')
    (h' : Grows L files' files'') : Grows L files files'' := by
  intro path c hc
  obtain ⟨c', hc', hp⟩ := h path c hc
  obtain ⟨c'', hc'', hp'⟩ := h' path c' hc'
  exact ⟨c'', hc'', hp.trans hp'⟩

theorem Effect.grows (h : Effect L before after op) : Grows L before after := by
  intro path c hc
  by_cases hp : path = op.relPath
  · rw [hp] at hc ⊢
    cases op with
    | publish p ck =>
      obtain ⟨entries, hb, -, ha⟩ := h.2
      refine ⟨_, ha, ?_⟩
      rw [contentsOf_of_hasEntries hb hc, List.map_append]
      exact List.prefix_append _ _
    | yank crateName version flag =>
      obtain ⟨older, v, newer, q, hb, -, -, ha⟩ := h.2
      cases hb.symm.trans hc
      refine ⟨_, ha, ?_⟩
      simp only [List.map_append, List.map_cons]
      exact List.prefix_refl _
    | confirm crateName version => exact h.2.elim
  · exact ⟨c, by rw [contentsOf_congr (h.1 path hp), hc], List.prefix_refl _⟩

/-- An entry of a file is in what the file grows to, up to its flag. -/
theorem Grows.entry (h : Grows L before after) {path : String} {c : Contents} {v : CrateVersion}
    (hc : contentsOf L before path = some c) (hv : v ∈ c.1) :
    ∃ c' v', contentsOf L after path = some c' ∧ v' ∈ c'.1 ∧ unflagged v' = unflagged v := by
  obtain ⟨c', hc', hp⟩ := h path c hc
  have hmem : unflagged v ∈ c'.1.map unflagged := hp.subset (List.mem_map_of_mem hv)
  obtain ⟨v', hv', he⟩ := List.mem_map.mp hmem
  exact ⟨c', v', hc', hv', he⟩

/-- The first entry of a file stays, up to its flag. -/
theorem Grows.head (h : Grows L before after) {path : String} {c : Contents} {v : CrateVersion}
    (hc : contentsOf L before path = some c) (hv : c.1.head? = some v) :
    ∃ c' v', contentsOf L after path = some c' ∧ c'.1.head? = some v' ∧
      unflagged v' = unflagged v := by
  obtain ⟨c', hc', hp⟩ := h path c hc
  obtain ⟨rest, hrest⟩ := List.head?_eq_some_iff.mp hv
  obtain ⟨newer, hnewer⟩ := hp
  rw [hrest, List.map_cons, List.cons_append] at hnewer
  have hhead := congrArg List.head? hnewer
  rw [List.head?_cons, List.head?_map] at hhead
  obtain ⟨v', hv', hu⟩ := Option.map_eq_some_iff.mp hhead.symm
  exact ⟨c', v', hc', hv', hu⟩

end Effect

/-! ## One call after another -/

/-- The call, run alone and without failures. -/
def IndexOp.run (L : Libs) (files : Files) : IndexOp → Outcome × Files
  | .publish p tarballChecksum =>
    let out := FsIndex.publish L {} files p tarballChecksum (fun _ w => (.ok (), w)) ()
    (out.1.map fun _ => .done, out.2.1)
  | .yank crateName version flag =>
    let out := yankInner L {} files crateName version flag
    (out.1.map fun _ => .done, out.2)
  | .confirm crateName version =>
    ((confirmExistence L {} files crateName version).map .found, files)

/-- A call that writes is what it is when it runs alone. -/
theorem run_of_writes {op : IndexOp} {m : CrateMetaPath} {files : Files} {c : Contents}
    (hm : accessCrate op.crateName = .ok m)
    (h : op.Writes L (pullFile false files op.relPath) c) :
    op.run L files =
      (.ok .done, Function.update files op.relPath (some (serializeData L c.1 c.2))) := by
  obtain ⟨-, hr⟩ := IndexOp.accessCrate_eq hm
  rw [← hr] at h ⊢
  cases op with
  | publish p ck =>
    change publishContents L p ck _ = .ok c at h
    change accessCrate p.name = .ok m at hm
    unfold IndexOp.run publish
    simp only [hm, h]
    rfl
  | yank crateName version flag =>
    change yankContents L version flag _ = .ok c at h
    change accessCrate crateName = .ok m at hm
    unfold IndexOp.run yankInner
    simp only [hm, h]
    rfl
  | confirm crateName version => exact h.elim

/-- A pull that fails gives a call nothing to write. -/
theorem IndexOp.writes_of_read {op : IndexOp} {fails : Bool} {files : Files} {path : String}
    {c : Contents} (h : op.Writes L (pullFile fails files path) c) :
    op.Writes L (pullFile false files path) c := by
  cases fails with
  | false => exact h
  | true => cases op <;> cases h

/-- What a put leaves: the files as they were, or with the new contents. -/
theorem putContents_cases (io : Io) (files : Files) (path : String) (c : Contents) :
    putContents L io files path c = (.error .serviceError, files) ∨
      putContents L io files path c =
        (.ok (), Function.update files path (some (serializeData L c.1 c.2))) := by
  unfold putContents putFile
  by_cases h : io.putFails = true
  · left
    rw [if_pos h]
  · right
    rw [if_neg h]

variable (L) in
/-- What a `publish` that runs alone does to the files. -/
theorem publish_effect {ω : Type} (io : Io) (files : Files) (p : Publish) (ck : Checksum)
    (endStep : Files → ω → Except IndexError Unit × ω) (w : ω) :
    (∃ e, (publish L io files p ck endStep w).1 = .error e) ∧
        (publish L io files p ck endStep w).2.1 = files ∨
      Effect L files (publish L io files p ck endStep w).2.1 (.publish p ck) := by
  unfold publish
  cases hm : accessCrate p.name with
  | error e => exact Or.inl ⟨⟨e, rfl⟩, rfl⟩
  | ok m =>
    have hname : accessCrate (IndexOp.publish p ck).crateName = .ok m := hm
    simp only [(IndexOp.accessCrate_eq hname).2]
    cases hc : publishContents L p ck
      (pullFile io.pullFails files (IndexOp.relPath (.publish p ck))) with
    | error e => exact Or.inl ⟨⟨e, rfl⟩, rfl⟩
    | ok c =>
      have hwrites : (IndexOp.publish p ck).Writes L
          (pullFile false files (IndexOp.relPath (.publish p ck))) c := IndexOp.writes_of_read hc
      rcases endStep files w with ⟨e | _, w'⟩
      · exact Or.inl ⟨⟨e, rfl⟩, rfl⟩
      · simp only
        rcases putContents_cases io files (IndexOp.relPath (.publish p ck)) c with hp | hp
        · rw [hp]
          exact Or.inl ⟨⟨_, rfl⟩, rfl⟩
        · simp only [hp]
          exact Or.inr (effect_of_writes hwrites)

variable (L) in
/-- What a yank or unyank that runs alone does to the files. -/
theorem yankInner_effect (io : Io) (files : Files) (crateName : String) (version : Version)
    (flag : Bool) :
    (yankInner L io files crateName version flag).2 = files ∨
      Effect L files (yankInner L io files crateName version flag).2
        (.yank crateName version flag) := by
  unfold yankInner
  cases hm : accessCrate crateName with
  | error e => exact Or.inl rfl
  | ok m =>
    have hname : accessCrate (IndexOp.yank crateName version flag).crateName = .ok m := hm
    simp only [(IndexOp.accessCrate_eq hname).2]
    cases hc : yankContents L version flag
      (pullFile io.pullFails files (IndexOp.relPath (.yank crateName version flag))) with
    | error e => exact Or.inl rfl
    | ok c =>
      have hwrites : (IndexOp.yank crateName version flag).Writes L
          (pullFile false files (IndexOp.relPath (.yank crateName version flag))) c :=
        IndexOp.writes_of_read hc
      simp only
      rcases putContents_cases io files (IndexOp.relPath (.yank crateName version flag)) c
        with hp | hp
      · rw [hp]
        exact Or.inl rfl
      · simp only [hp]
        exact Or.inr (effect_of_writes hwrites)

/-! ## Results -/

/-- The result of a call that has one. -/
def Pc.result : Pc → Option Outcome
  | .leaving _ r => some r
  | .unlocked _ r => some r
  | .dropped r => some r
  | .returned r => some r
  | _ => none

/-- The calls that wrote, in the order of their puts. -/
def writers {ι : Type} (labels : List (Label ι)) : List ι :=
  labels.filterMap fun a => match a with
    | .put i false => some i
    | _ => none

section Machine

variable {ι : Type} [DecidableEq ι] {ops : ι → IndexOp} {s s' : State ι} {a : Label ι}
  {files : Files} {labels : List (Label ι)}

theorem result_afterPull {op : IndexOp} (hop : op.mode = .write) (l : ℕ)
    (read : Except StorageError Bytes) (r : Answer) :
    (op.afterPull L l read).result ≠ some (.ok r) := by
  cases op with
  | publish p ck =>
    simp only [IndexOp.afterPull]
    cases publishContents L p ck read <;> simp [Pc.result]
  | yank crateName version flag =>
    simp only [IndexOp.afterPull]
    cases yankContents L version flag read <;> simp [Pc.result]
  | confirm crateName version => cases hop

/-- **A call that writes succeeds by its put**, and keeps its result. -/
theorem result_step (hs : step L ops s a = some s') {j : ι} (hj : (ops j).mode = .write)
    (r : Answer) (ha : a ≠ .put j false) :
    (s'.pc j).result = some (.ok r) ↔ (s.pc j).result = some (.ok r) := by
  have hmove : ∀ {i : ι} {pc : Pc}, (i = j → (pc.result = some (.ok r) ↔
      (s.pc i).result = some (.ok r))) →
        ((Function.update s.pc i pc j).result = some (.ok r) ↔
          (s.pc j).result = some (.ok r)) := by
    intro i pc h
    refine moved_or_stayed (Q := fun pc => pc.result = some (.ok r) ↔ _) (fun hij => ?_)
      fun _ => Iff.rfl
    rw [h hij, hij]
  cases step_cases hs with
  | refused hp => exact hmove fun _ => by rw [hp]; simp [Pc.result]
  | looked hp => exact hmove fun _ => by rw [hp]; rfl
  | acquired hp => exact hmove fun _ => by rw [hp]; rfl
  | pulled hp =>
    refine hmove fun hij => ?_
    subst hij
    simp only [hp, Pc.result, reduceCtorEq, iff_false]
    exact result_afterPull hj _ _ r
  | stored hp => exact hmove fun _ => by rw [hp]; rfl
  | notStored hp => exact hmove fun _ => by rw [hp]; simp [Pc.result]
  | put hp => exact hmove fun hij => absurd (by rw [hij]) ha
  | notPut hp => exact hmove fun _ => by rw [hp]; simp [Pc.result]
  | released hp => exact hmove fun _ => by rw [hp]; rfl
  | dropped hp => exact hmove fun _ => by rw [hp]; rfl
  | finished hp => exact hmove fun _ => by rw [hp]; rfl

theorem result_put {i : ι} (hs : step L ops s (.put i false) = some s') :
    (s.pc i).result = none ∧ (s'.pc i).result = some (.ok .done) := by
  cases step_cases hs with
  | put hp => exact ⟨by rw [hp]; rfl, by simp [State.move, Pc.result]⟩

/-- Every step leaves the files alone or is the put of a call. -/
theorem effect_step (h : Inv L ops s) (hs : step L ops s a = some s') :
    (∀ i, a ≠ .put i false) ∧ s'.files = s.files ∨
      ∃ i, a = .put i false ∧ Effect L s.files s'.files (ops i) ∧
        (ops i).run L s.files = (.ok .done, s'.files) ∧ (ops i).mode = .write := by
  by_cases ha : ∃ i, a = .put i false
  · obtain ⟨i, rfl⟩ := ha
    obtain ⟨c, hw, hf⟩ := put_spec h hs
    have hallowed : ∃ m, accessCrate (ops i).crateName = .ok m := by
      cases step_cases hs with
      | @put _ l c hp => exact h.allowed i (l, (ops i).mode) (by rw [hp]; rfl)
    obtain ⟨m, hm⟩ := hallowed
    refine Or.inr ⟨i, rfl, ?_, ?_, IndexOp.mode_of_writes hw⟩
    · rw [hf]
      exact effect_of_writes hw
    · rw [hf]
      exact run_of_writes hm hw
  · have hne : ∀ i, a ≠ .put i false := fun i e => ha ⟨i, e⟩
    exact Or.inl ⟨hne, files_eq_of_step hs hne⟩

theorem grows_step (h : Inv L ops s) (hs : step L ops s a = some s') :
    Grows L s.files s'.files := by
  rcases effect_step h hs with ⟨-, hf⟩ | ⟨i, -, he, -⟩
  · rw [hf]
    exact Grows.refl _
  · exact he.grows

/-! ## Runs -/

omit [DecidableEq ι] in
theorem writers_concat (labels : List (Label ι)) (a : Label ι) :
    writers (labels ++ [a]) = writers labels ++ writers [a] := List.filterMap_append

omit [DecidableEq ι] in
theorem writers_singleton_of_ne (ha : ∀ i, a ≠ .put i false) : writers [a] = [] := by
  cases a with
  | put i fails =>
    cases fails with
    | true => rfl
    | false => exact absurd rfl (ha i)
  | _ => rfl

/-- **The files after a run are those of its writers, run one after another**, each with
success. -/
theorem files_eq_foldl (h : Run.exec (step L ops) (initial files) labels = some s) :
    s.files = (writers labels).foldl (fun f i => ((ops i).run L f).2) files := by
  induction labels using List.reverseRecOn generalizing s with
  | nil => cases h; rfl
  | append_singleton labels a ih =>
    obtain ⟨t, ht, hs⟩ := Run.exec_concat_eq_some.mp h
    rw [writers_concat, List.foldl_append, ← ih ht]
    rcases effect_step (exec_inv ht) hs with ⟨ha, hf⟩ | ⟨i, rfl, -, hrun, -⟩
    · rw [writers_singleton_of_ne ha, hf]
      rfl
    · change s.files = ((ops i).run L t.files).2
      rw [hrun]

omit [DecidableEq ι] in
/-- The put of a writer. -/
theorem exists_put {before after : List ι} {i : ι}
    (h : writers labels = before ++ i :: after) :
    ∃ pre post, labels = pre ++ .put i false :: post ∧ writers pre = before := by
  obtain ⟨l₁, l₂, rfl, h1, h2⟩ := List.filterMap_eq_append_iff.mp h
  obtain ⟨l₃, a, l₄, rfl, h3, ha, -⟩ := List.filterMap_eq_cons_iff.mp h2
  have hput : a = .put i false := by
    cases a with
    | put j fails =>
      cases fails with
      | true => cases ha
      | false => cases ha; rfl
    | _ => cases ha
  subst hput
  refine ⟨l₁ ++ l₃, l₄, by rw [List.append_assoc], ?_⟩
  have h3' : writers l₃ = [] := List.filterMap_eq_nil_iff.mpr h3
  change writers (l₁ ++ l₃) = before
  rw [writers, List.filterMap_append]
  change writers l₁ ++ writers l₃ = before
  rw [h3', List.append_nil]
  exact h1

/-- **The writers are the calls that succeed**, each once. -/
theorem writers_spec (h : Run.exec (step L ops) (initial files) labels = some s) :
    (writers labels).Nodup ∧ ∀ i, i ∈ writers labels ↔
      (ops i).mode = .write ∧ ∃ r, (s.pc i).result = some (.ok r) := by
  induction labels using List.reverseRecOn generalizing s with
  | nil =>
    cases h
    refine ⟨List.nodup_nil, fun i => ?_⟩
    simp [writers, initial, Pc.result]
  | append_singleton labels a ih =>
    obtain ⟨t, ht, hs⟩ := Run.exec_concat_eq_some.mp h
    obtain ⟨hnodup, hmem⟩ := ih ht
    have hkeep : ∀ j, a ≠ .put j false → (j ∈ writers labels ↔
        (ops j).mode = .write ∧ ∃ r, (s.pc j).result = some (.ok r)) := fun j hj => by
      rw [hmem j]
      exact and_congr_right fun hm => exists_congr fun r => (result_step hs hm r hj).symm
    rw [writers_concat]
    rcases effect_step (exec_inv ht) hs with ⟨ha, -⟩ | ⟨i, rfl, -, -, hmode⟩
    · rw [writers_singleton_of_ne ha, List.append_nil]
      exact ⟨hnodup, fun j => hkeep j (ha j)⟩
    · obtain ⟨hnone, hok⟩ := result_put hs
      have hi : i ∉ writers labels := fun hi => by
        obtain ⟨-, r, hr⟩ := (hmem i).mp hi
        rw [hnone] at hr
        cases hr
      change (writers labels ++ [i]).Nodup ∧ ∀ j, j ∈ writers labels ++ [i] ↔ _
      refine ⟨hnodup.append (List.nodup_singleton i) (List.disjoint_singleton.mpr hi),
        fun j => ?_⟩
      rw [List.mem_append, List.mem_singleton]
      by_cases hj : j = i
      · subst hj
        exact ⟨fun _ => ⟨hmode, _, hok⟩, fun _ => Or.inr rfl⟩
      · rw [or_iff_left hj]
        exact hkeep j fun e => by cases e; exact hj rfl

/-- The entry of a successful `publish` is in the file. -/
theorem entry_of_published (h : Run.exec (step L ops) (initial files) labels = some s) {i : ι}
    {p : Publish} {ck : Checksum} (hi : ops i = .publish p ck)
    (hr : ∃ r, (s.pc i).result = some (.ok r)) :
    ∃ c v, contentsOf L s.files (ops i).relPath = some c ∧ v ∈ c.1 ∧
      unflagged v = release p ck := by
  induction labels using List.reverseRecOn generalizing s with
  | nil =>
    cases h
    obtain ⟨r, hr⟩ := hr
    cases hr
  | append_singleton labels a ih =>
    obtain ⟨t, ht, hs⟩ := Run.exec_concat_eq_some.mp h
    by_cases ha : a = .put i false
    · subst ha
      rcases effect_step (exec_inv ht) hs with ⟨hne, -⟩ | ⟨j, hj, he, -⟩
      · exact absurd rfl (hne i)
      · cases hj
        have h2 := he.2
        rw [hi] at h2 ⊢
        obtain ⟨entries, -, -, hafter⟩ := h2
        exact ⟨_, release p ck, hafter, by simp, rfl⟩
    · obtain ⟨r, hr⟩ := hr
      have hmode : (ops i).mode = .write := by rw [hi]; rfl
      obtain ⟨c, v, hc, hv, hu⟩ := ih ht ⟨r, (result_step hs hmode r ha).mp hr⟩
      obtain ⟨c', v', hc', hv', hu'⟩ := (grows_step (exec_inv ht) hs).entry hc hv
      exact ⟨c', v', hc', hv', hu'.trans hu⟩

/-- When a version is put, no other publish of it has succeeded, as its entry would be found. -/
theorem not_published_of_put {t t' : State ι} {k m : ι} {p q : Publish} {ck ck' : Checksum}
    (ht : Run.exec (step L ops) (initial files) labels = some t)
    (hs : step L ops t (.put m false) = some t') (hk : ops k = .publish p ck)
    (hm : ops m = .publish q ck') (hpath : (ops k).relPath = (ops m).relPath)
    (hvers : p.vers = q.vers) : ¬ ∃ r, (t.pc k).result = some (.ok r) := by
  intro hr
  obtain ⟨c, v, hc, hv, hu⟩ := entry_of_published ht hk hr
  obtain ⟨-, hvers', -⟩ := of_unflagged_eq_release hu
  rcases effect_step (exec_inv ht) hs with ⟨hne, -⟩ | ⟨m', hm', he, -⟩
  · exact absurd rfl (hne m)
  · cases hm'
    have heffect := he.2
    rw [hpath, hm] at hc
    rw [hm] at heffect
    obtain ⟨entries, hentries, hlacks, -⟩ := heffect
    have hold := contentsOf_of_hasEntries hentries hc
    exact hlacks v (hold ▸ hv) (hvers'.trans hvers)

/-- **A version is published once.** -/
theorem published_once (h : Run.exec (step L ops) (initial files) labels = some s) {i j : ι}
    {p q : Publish} {ck ck' : Checksum} (hij : i ≠ j) (hi : ops i = .publish p ck)
    (hj : ops j = .publish q ck') (hkey : (ops i).key = (ops j).key) (hvers : p.vers = q.vers) :
    ¬ ((∃ r, (s.pc i).result = some (.ok r)) ∧ ∃ r, (s.pc j).result = some (.ok r)) := by
  have hpath : (ops i).relPath = (ops j).relPath := congrArg keyPath hkey
  induction labels using List.reverseRecOn generalizing s with
  | nil =>
    cases h
    rintro ⟨⟨r, hr⟩, -⟩
    cases hr
  | append_singleton labels a ih =>
    obtain ⟨t, ht, hs⟩ := Run.exec_concat_eq_some.mp h
    have hmi : (ops i).mode = .write := by rw [hi]; rfl
    have hmj : (ops j).mode = .write := by rw [hj]; rfl
    rintro ⟨⟨r, hr⟩, r', hr'⟩
    by_cases hai : a = .put i false
    · subst hai
      have hj' := (result_step hs hmj r' fun e => by cases e; exact hij rfl).mp hr'
      exact not_published_of_put ht hs hj hi hpath.symm hvers.symm ⟨r', hj'⟩
    · have hi' := (result_step hs hmi r hai).mp hr
      by_cases haj : a = .put j false
      · subst haj
        exact not_published_of_put ht hs hi hj hpath hvers ⟨r, hi'⟩
      · exact ih ht ⟨⟨r, hi'⟩, r', (result_step hs hmj r' haj).mp hr'⟩

theorem exec_grows (h : Run.exec (step L ops) (initial files) labels = some s) :
    Grows L files s.files :=
  Run.exec_rel (I := Inv L ops) (R := fun s t => Grows L s.files t.files)
    (fun _ _ _ hI hs => inv_step hI hs) (fun _ => Grows.refl _) (fun _ _ _ => Grows.trans)
    (fun _ _ _ hI hs => grows_step hI hs) h (inv_initial files)

theorem exec_distinct (h : Run.exec (step L ops) (initial files) labels = some s)
    (hd : Distinct L files) : Distinct L s.files := by
  refine (Run.exec_invariant (I := fun s => Inv L ops s ∧ Distinct L s.files) ?_ h
    ⟨inv_initial files, hd⟩).2
  rintro t a t' ⟨hI, hd'⟩ hs
  refine ⟨inv_step hI hs, ?_⟩
  rcases effect_step hI hs with ⟨-, hf⟩ | ⟨i, -, he, -⟩
  · rw [hf]
    exact hd'
  · exact he.distinct hd'

/-- **No update is lost, made twice or mixed up with another.** In every run, whatever fails, the
files are those of the calls that wrote, run one after another in the order of their puts, each with
success and with its effect on what the previous left; a call wrote iff it succeeds, and once. So
the files only grow but for the flags, and no version of a crate is published twice. -/
theorem linearizable (L : Libs) (ops : ι → IndexOp) (files : Files) (labels : List (Label ι))
    (s : State ι) (h : Run.exec (step L ops) (initial files) labels = some s) :
    s.files = (writers labels).foldl (fun f i => ((ops i).run L f).2) files ∧
    (∀ before i after, writers labels = before ++ i :: after →
      let f := before.foldl (fun f i => ((ops i).run L f).2) files
      ((ops i).run L f).1 = .ok .done ∧ Effect L f ((ops i).run L f).2 (ops i)) ∧
    (writers labels).Nodup ∧
    (∀ i, i ∈ writers labels ↔ (ops i).mode = .write ∧ ∃ r, (s.pc i).result = some (.ok r)) ∧
    Grows L files s.files ∧
    (Distinct L files → Distinct L s.files) ∧
    (∀ i j p q ck ck', i ≠ j → ops i = .publish p ck → ops j = .publish q ck' →
      (ops i).key = (ops j).key → p.vers = q.vers →
      ¬ ((∃ r, (s.pc i).result = some (.ok r)) ∧ ∃ r, (s.pc j).result = some (.ok r))) := by
  obtain ⟨hnodup, hmem⟩ := writers_spec h
  refine ⟨files_eq_foldl h, fun before i after hw => ?_, hnodup, hmem, exec_grows h,
    exec_distinct h, fun i j p q ck ck' hij hi hj hk hv => published_once h hij hi hj hk hv⟩
  obtain ⟨pre, post, rfl, rfl⟩ := exists_put hw
  obtain ⟨t, ht, hrest⟩ := Run.exec_append_eq_some.mp h
  obtain ⟨t', hs, -⟩ := Run.exec_cons_eq_some.mp hrest
  simp only [← files_eq_foldl ht]
  rcases effect_step (exec_inv ht) hs with ⟨hne, -⟩ | ⟨j, hj, he, hrun, -⟩
  · exact absurd rfl (hne i)
  · cases hj
    rw [hrun]
    exact ⟨rfl, he⟩

end Machine

/-- A publish that writes while a yank of the same crate waits; the pull of the yank fails. -/
theorem linearizable_two :
    let ops : Bool → IndexOp := fun i =>
      bif i then .publish { Publish.empty with name := "foo" } (List.Vector.replicate 32 0)
      else .yank "Foo" (Version.new 0 0 0) true
    let labels := [.start true, .start false, .acquire true, .pull true false,
      .endStep true (.ok ()), .put true false, .release true, .dropArc true, .acquire false,
      .onUnlocked true, .pull false true]
    ∃ s, Run.exec (step Libs.canonical ops) (initial fun _ => none) labels = some s ∧
      s.files = (writers labels).foldl (fun f i => ((ops i).run Libs.canonical f).2)
        fun _ => none := by
  intro ops labels
  have h : (Run.exec (step Libs.canonical ops) (initial fun _ => none) labels).isSome = true := by
    decide +kernel
  obtain ⟨s, hs⟩ := Option.isSome_iff_exists.mp h
  exact ⟨s, hs, (linearizable Libs.canonical ops _ labels s hs).1⟩

end FsIndex

end Freighter
