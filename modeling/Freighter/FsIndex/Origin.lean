import Freighter.FsIndex.History

/-!
# Where entries come from

Starting from no files, every entry of a file is the release of a `publish` call that succeeded, and
`confirm_existence` finds nothing else.

* `Published`: the call published a version; **`entry_origin`**, **`found_origin`**;
* `cksum_of_published`: what the file has for the version that a call published.
-/

namespace Freighter

namespace FsIndex

variable {L : Libs} {ι : Type} [DecidableEq ι] {ops : ι → IndexOp} {s s' : State ι} {a : Label ι}
  {labels : List (Label ι)}

/-- The call published `p` with the checksum: its name is allowed, and it succeeded. -/
structure Published (ops : ι → IndexOp) (s : State ι) (i : ι) (p : Publish)
    (tarballChecksum : Checksum) : Prop where
  op : ops i = .publish p tarballChecksum
  allowed : ∃ m, accessCrate (ops i).crateName = .ok m
  ok : ∃ r, (s.pc i).result = some (.ok r)

/-- A call that has published stays so. -/
theorem Published.step {i : ι} {p : Publish} {ck : Checksum} (h : Published ops s i p ck)
    (hs : step L ops s a = some s') : Published ops s' i p ck := by
  refine ⟨h.op, h.allowed, ?_⟩
  obtain ⟨r, hr⟩ := h.ok
  have ha : a ≠ .put i false := by
    rintro rfl
    rw [(result_put hs).1] at hr
    cases hr
  have hmode : (ops i).mode = .write := by rw [h.op]; rfl
  exact ⟨r, (result_step hs hmode r ha).mpr hr⟩

/-- **Every entry was published**, by a call on its file, and is the release of that call up to its
flag. -/
theorem entry_origin (h : Run.exec (step L ops) (initial fun _ => none) labels = some s)
    {path : String} {c : Contents} {v : CrateVersion} (hc : contentsOf L s.files path = some c)
    (hv : v ∈ c.1) : ∃ i p ck, Published ops s i p ck ∧ (ops i).relPath = path ∧
      unflagged v = release p ck := by
  induction labels using List.reverseRecOn generalizing s path c v with
  | nil =>
    cases h
    cases hc
  | append_singleton labels a ih =>
    obtain ⟨t, ht, hs⟩ := Run.exec_concat_eq_some.mp h
    have hkept : ∀ {c₀ : Contents} {v₀ : CrateVersion}, contentsOf L t.files path = some c₀ →
        v₀ ∈ c₀.1 → unflagged v = unflagged v₀ → ∃ i p ck, Published ops s i p ck ∧
          (ops i).relPath = path ∧ unflagged v = release p ck := by
      intro c₀ v₀ hc₀ hv₀ hu
      obtain ⟨i, p, ck, hpub, hpath, hrel⟩ := ih ht hc₀ hv₀
      exact ⟨i, p, ck, hpub.step hs, hpath, hu.trans hrel⟩
    rcases effect_step (exec_inv ht) hs with ⟨-, hf⟩ | ⟨i, rfl, he, -, hmode⟩
    · rw [hf] at hc
      exact hkept hc hv rfl
    · rcases he.entry hc hv with ⟨c₀, v₀, hc₀, hv₀, hu⟩ | ⟨p, ck, hop, rfl, rfl⟩
      · exact hkept hc₀ hv₀ hu
      · refine ⟨i, p, ck, ⟨hop, ?_, _, (result_put hs).2⟩, rfl, rfl⟩
        cases step_cases hs with
        | @put _ l c hp => exact (exec_inv ht).allowed i (l, (ops i).mode) (by rw [hp]; rfl)

/-- What is found is the flag and the checksum of an entry of the version. -/
theorem existsAnswer_ok {version : Version} {fails : Bool} {files : Files} {path : String}
    {e : CrateVersionExists} (h : existsAnswer L version (pullFile fails files path) = .ok e) :
    ∃ c v, contentsOf L files path = some c ∧ v ∈ c.1 ∧ v.vers = version ∧
      e.tarballChecksum = v.cksum := by
  have hfails : fails = false := by
    cases fails with
    | false => rfl
    | true => cases h
  subst hfails
  unfold existsAnswer at h
  cases hd : deserialized L (pullFile false files path) with
  | error e' =>
    rw [hd] at h
    cases h
  | ok c =>
    rw [hd] at h
    simp only at h
    cases hf : c.1.reverse.find? (·.vers = version) with
    | none =>
      rw [hf] at h
      cases h
    | some v =>
      rw [hf] at h
      cases h
      have hvers := List.find?_some hf
      exact ⟨c, v, deserialized_ok.mp hd, List.mem_reverse.mp (List.mem_of_find?_eq_some hf),
        by simpa using hvers, rfl⟩

/-- A version of the file is found. -/
theorem existsAnswer_of_mem {version : Version} {files : Files} {path : String} {c : Contents}
    {v : CrateVersion} (hc : contentsOf L files path = some c) (hv : v ∈ c.1)
    (hvers : v.vers = version) :
    ∃ e, existsAnswer L version (pullFile false files path) = .ok e := by
  unfold existsAnswer
  rw [deserialized_ok.mpr hc]
  cases hf : c.1.reverse.find? (·.vers = version) with
  | some e =>
    refine ⟨⟨e.yanked, e.cksum⟩, ?_⟩
    simp only [hf]
  | none =>
    have := List.find?_eq_none.mp hf v (List.mem_reverse.mpr hv)
    exact absurd (decide_eq_true hvers) this

/-- A confirmation gets what it finds by its pull. -/
theorem found_step (hs : step L ops s a = some s') {i : ι} {name : String} {version : Version}
    {e : CrateVersionExists} (hi : ops i = .confirm name version)
    (hr : (s'.pc i).result = some (.ok (.found e))) :
    (s.pc i).result = some (.ok (.found e)) ∨ ∃ l fails, s.pc i = .holding l ∧
      existsAnswer L version (pullFile fails s.files (s.locks.lock l).object) = .ok e := by
  have hmove : ∀ {P : Prop} {j : ι} {pc : Pc}, (j = i → pc.result = some (.ok (.found e)) →
      (s.pc i).result = some (.ok (.found e)) ∨ P) →
      (Function.update s.pc j pc i).result = some (.ok (.found e)) →
      (s.pc i).result = some (.ok (.found e)) ∨ P := by
    intro P j pc hpc
    exact moved_or_stayed (Q := fun pc => pc.result = some (.ok (.found e)) → _) hpc
      fun _ => Or.inl
  cases step_cases hs with
  | refused => exact hmove (fun _ h => by cases h) hr
  | looked => exact hmove (fun _ h => by cases h) hr
  | acquired => exact hmove (fun _ h => by cases h) hr
  | @pulled j l fails hp =>
    refine hmove (fun hij h => Or.inr ⟨l, fails, hij ▸ hp, ?_⟩) hr
    subst hij
    rw [hi] at h
    simp only [IndexOp.afterPull, Pc.result, Option.some.injEq] at h
    cases hx : existsAnswer L version (pullFile fails s.files (s.locks.lock l).object) with
    | error e' =>
      rw [hx] at h
      cases h
    | ok e' =>
      rw [hx] at h
      cases h
      rfl
  | stored => exact hmove (fun _ h => by cases h) hr
  | notStored => exact hmove (fun _ h => by cases h) hr
  | put => exact hmove (fun _ h => by cases h) hr
  | notPut => exact hmove (fun _ h => by cases h) hr
  | released hp => exact hmove (fun hij h => Or.inl (by rw [← hij, hp]; exact h)) hr
  | dropped hp => exact hmove (fun hij h => Or.inl (by rw [← hij, hp]; exact h)) hr
  | finished hp => exact hmove (fun hij h => Or.inl (by rw [← hij, hp]; exact h)) hr

/-- **What `confirm_existence` finds was published**, under the name up to the case of its
letters. -/
theorem found_origin (h : Run.exec (step L ops) (initial fun _ => none) labels = some s) {i : ι}
    {name : String} {version : Version} {e : CrateVersionExists}
    (hi : ops i = .confirm name version) (hr : (s.pc i).result = some (.ok (.found e))) :
    ∃ j p ck, Published ops s j p ck ∧ (ops j).key = (ops i).key ∧ p.vers = version ∧
      e.tarballChecksum = ck := by
  induction labels using List.reverseRecOn generalizing s with
  | nil =>
    cases h
    cases hr
  | append_singleton labels a ih =>
    obtain ⟨t, ht, hs⟩ := Run.exec_concat_eq_some.mp h
    rcases found_step hs hi hr with hr | ⟨l, fails, hp, hx⟩
    · obtain ⟨j, p, ck, hpub, hrest⟩ := ih ht hr
      exact ⟨j, p, ck, hpub.step hs, hrest⟩
    · have hold : (t.pc i).hold (ops i).mode = some (l, (ops i).mode) := by rw [hp]; rfl
      rw [(exec_inv ht).object_eq hold] at hx
      obtain ⟨c, v, hc, hv, hvers, hck⟩ := existsAnswer_ok hx
      obtain ⟨j, p, ck, hpub, hpath, hu⟩ := entry_origin ht hc hv
      obtain ⟨m, hm⟩ := hpub.allowed
      obtain ⟨m', hm'⟩ := (exec_inv ht).allowed i _ hold
      obtain ⟨-, hvers', hck'⟩ := of_unflagged_eq_release hu
      exact ⟨j, p, ck, hpub.step hs, IndexOp.key_eq_of_relPath hm hm' hpath,
        hvers'.symm.trans hvers, hck.trans hck'⟩

/-- **The file has one entry of a version that was published**, with the checksum of that call. -/
theorem cksum_of_published (h : Run.exec (step L ops) (initial fun _ => none) labels = some s)
    {i : ι} {p : Publish} {ck : Checksum} (hp : Published ops s i p ck) :
    ∃ c, contentsOf L s.files (ops i).relPath = some c ∧
      (∃ v ∈ c.1, unflagged v = release p ck) ∧
      ∀ v ∈ c.1, v.vers = p.vers → v.cksum = ck := by
  obtain ⟨c, v, hc, hv, hu⟩ := entry_of_published h hp.op hp.ok
  refine ⟨c, hc, ⟨v, hv, hu⟩, fun w hw hvers => ?_⟩
  have hnodup : (c.1.map CrateVersion.vers).Nodup :=
    exec_distinct h (fun _ _ hc => by cases hc) _ c hc
  obtain ⟨-, hvers', hck⟩ := of_unflagged_eq_release hu
  have hsame : w = v := List.inj_on_of_nodup_map hnodup hw hv (hvers.trans hvers'.symm)
  rw [hsame]
  exact hck

end FsIndex

end Freighter
