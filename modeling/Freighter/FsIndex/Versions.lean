import Freighter.FsIndex.Origin

/-!
# How far versions are unique

The duplicate check of `publish` compares whole versions, build metadata included.

* `Version.ignoringBuild`, `UniqueIgnoringBuild`;
* **`versions_unique`**: a file has one entry of a version; with build metadata ignored it has one
  iff no two calls have published versions that differ in build metadata only.
-/

namespace Freighter

/-- The major, minor and patch numbers and the pre-release of a version. -/
def Version.ignoringBuild (v : Version) : UInt64 × UInt64 × UInt64 × Prerelease :=
  (v.major, v.minor, v.patch, v.pre)

namespace FsIndex

/-- No two entries of a file agree in all but build metadata. -/
def UniqueIgnoringBuild (L : Libs) (files : Files) : Prop :=
  ∀ path c, contentsOf L files path = some c → (c.1.map fun v => v.vers.ignoringBuild).Nodup

/-! ## Entries and calls -/

section Entries

variable {L : Libs} {ι : Type} [DecidableEq ι] {ops : ι → IndexOp} {s : State ι} {i j : ι}
  {p q : Publish} {ck ck' : Checksum} {labels : List (Label ι)}

/-- Where versions are unique with build metadata ignored, two calls on one crate have not published
versions that differ in it only. -/
theorem vers_eq_of_unique (h : Run.exec (step L ops) (initial fun _ => none) labels = some s)
    (hunique : UniqueIgnoringBuild L s.files) (hp : Published ops s i p ck)
    (hq : Published ops s j q ck') (hkey : (ops i).key = (ops j).key)
    (hsame : p.vers.ignoringBuild = q.vers.ignoringBuild) : p.vers = q.vers := by
  have hpath : (ops i).relPath = (ops j).relPath := congrArg keyPath hkey
  obtain ⟨c, v, hc, hv, hu⟩ := entry_of_published h hp.op hp.ok
  obtain ⟨c', w, hc', hw, hu'⟩ := entry_of_published h hq.op hq.ok
  rw [hpath, hc', Option.some.injEq] at hc
  subst hc
  obtain ⟨-, hvers, -⟩ := of_unflagged_eq_release hu
  obtain ⟨-, hvers', -⟩ := of_unflagged_eq_release hu'
  have hvw : v = w := by
    apply List.inj_on_of_nodup_map (hunique _ _ hc') hv hw
    rw [hvers, hvers']
    exact hsame
  rw [← hvers, ← hvers', hvw]

theorem unique_of_vers_eq (h : Run.exec (step L ops) (initial fun _ => none) labels = some s)
    (hall : ∀ i j p q ck ck', Published ops s i p ck → Published ops s j q ck' →
      (ops i).key = (ops j).key → p.vers.ignoringBuild = q.vers.ignoringBuild →
        p.vers = q.vers) : UniqueIgnoringBuild L s.files := by
  intro path c hc
  have hdistinct : (c.1.map CrateVersion.vers).Nodup :=
    exec_distinct h (fun _ _ hc => by cases hc) path c hc
  refine List.Nodup.map_on (fun v hv w hw hsame => ?_) (List.Nodup.of_map _ hdistinct)
  obtain ⟨i, p, ck, hp, hpath, hu⟩ := entry_origin h hc hv
  obtain ⟨j, q, ck', hq, hpath', hu'⟩ := entry_origin h hc hw
  obtain ⟨m, hm⟩ := hp.allowed
  obtain ⟨m', hm'⟩ := hq.allowed
  obtain ⟨-, hvers, -⟩ := of_unflagged_eq_release hu
  obtain ⟨-, hvers', -⟩ := of_unflagged_eq_release hu'
  have hkey : (ops i).key = (ops j).key :=
    IndexOp.key_eq_of_relPath hm hm' (hpath.trans hpath'.symm)
  apply List.inj_on_of_nodup_map hdistinct hv hw
  rw [hvers, hvers']
  apply hall i j p q ck ck' hp hq hkey
  rw [← hvers, ← hvers']
  exact hsame

end Entries

/-- **Versions are unique, build metadata included.** In every state that calls reach from no files,
a file has no two entries of one version. With build metadata ignored its versions are unique iff no
two calls have published versions of one crate that differ in build metadata only. -/
theorem versions_unique (L : Libs) {ι : Type} [DecidableEq ι] (ops : ι → IndexOp)
    (labels : List (Label ι)) (s : State ι)
    (h : Run.exec (step L ops) (initial fun _ => none) labels = some s) :
    Distinct L s.files ∧
    (UniqueIgnoringBuild L s.files ↔
      ∀ i j p q ck ck', Published ops s i p ck → Published ops s j q ck' →
        (ops i).key = (ops j).key → p.vers.ignoringBuild = q.vers.ignoringBuild →
          p.vers = q.vers) := by
  refine ⟨exec_distinct h (fun _ _ hc => by cases hc), fun hunique => ?_, unique_of_vers_eq h⟩
  exact fun i j p q ck ck' hp hq => vers_eq_of_unique h hunique hp hq

/-! ## Two versions that differ in build metadata -/

/-- 1.0.7. -/
def plain : Version := Version.new 1 0 7

/-- 1.0.7+extra. -/
def extra : Version := { plain with build := ⟨"extra", Or.inr (by decide)⟩ }

example : (plain.display, extra.display) = ("1.0.7", "1.0.7+extra") := by decide

/-- Two publishes of `foo`. -/
def twice : Bool → IndexOp
  | true => .publish { foo with vers := plain } (abcHash [])
  | false => .publish { foo with vers := extra } (abcHash [])

/-- The first publish is done, and the second one holds the lock. -/
def firstDone : List (Label Bool) :=
  [.start true, .acquire true, .pull true false, .endStep true (.ok ()), .put true false,
    .release true, .dropArc true, .onUnlocked true, .start false, .acquire false]

/-- A call that holds its lock writes what it computes. -/
theorem exec_writes {L : Libs} {ι : Type} [DecidableEq ι] {ops : ι → IndexOp} {s : State ι} {i : ι}
    {p : Publish} {ck : Checksum} {l : ℕ} {c : Contents} (hi : ops i = .publish p ck)
    (hpc : s.pc i = .holding l) (hc : publishContents L p ck
      (pullFile false s.files (s.locks.lock l).object) = .ok c) :
    (Run.exec (step L ops) s [.pull i false, .endStep i (.ok ()), .put i false]).map
      (fun s' => (s'.pc i).result) = some (some (.ok .done)) := by
  simp only [Run.exec, step, State.move, hpc, hi, IndexOp.afterPull, hc, Function.update_self,
    Option.bind_some, putContents, putFile, Bool.false_eq_true, if_false, Option.map_some,
    Pc.result]

theorem allowed_twice (i : Bool) : ∃ m, accessCrate (twice i).crateName = .ok m := by
  refine ⟨⟨"foo", "index/3/f/foo"⟩, ?_⟩
  cases i <;> decide

/-- One publish has succeeded, and the other holds the lock. -/
theorem exists_firstDone : ∃ t l,
    Run.exec (step Libs.canonical twice) (initial fun _ => none) firstDone = some t ∧
      Published twice t true { foo with vers := plain } (abcHash []) ∧
      t.pc false = .holding l := by
  have hresult : (Run.exec (step Libs.canonical twice) (initial fun _ => none) firstDone).any
      (fun s => decide ((s.pc true).result = some (.ok .done))) = true := by decide +kernel
  have hpull : (Run.exec (step Libs.canonical twice) (initial fun _ => none)
      (firstDone ++ [.pull false false])).isSome = true := by decide +kernel
  rw [Option.any_eq_true] at hresult
  obtain ⟨t, ht, hresult⟩ := hresult
  obtain ⟨u, hu⟩ := Option.isSome_iff_exists.mp hpull
  obtain ⟨t', ht', hstep⟩ := Run.exec_concat_eq_some.mp hu
  cases ht.symm.trans ht'
  obtain ⟨l, hl⟩ := holding_of_pull hstep
  exact ⟨t, l, ht, ⟨rfl, allowed_twice true, _, of_decide_eq_true hresult⟩, hl⟩

/-- Both publishes of `foo` succeed. -/
theorem both_published : ∃ s, Run.exec (step Libs.canonical twice) (initial fun _ => none)
      (firstDone ++ [.pull false false, .endStep false (.ok ()), .put false false]) = some s ∧
    Published twice s true { foo with vers := plain } (abcHash []) ∧
    Published twice s false { foo with vers := extra } (abcHash []) := by
  obtain ⟨t, l, ht, hp, hl⟩ := exists_firstDone
  have hobj : (t.locks.lock l).object = (twice true).relPath :=
    (exec_inv ht).object_eq (i := false) (m := .write) (by rw [hl]; rfl)
  -- the file has the one entry, of another version
  obtain ⟨c, hc, -, -⟩ := cksum_of_published ht hp
  obtain ⟨data, hdata, hparse⟩ := contentsOf_eq_some.mp hc
  have hlacks : Lacks Libs.canonical (pullFile false t.files (t.locks.lock l).object) extra := by
    refine Or.inr ⟨data, c, ?_, hparse, fun v hv => ?_⟩
    · rw [hobj]
      simp [pullFile, hdata]
    · obtain ⟨i, q, ck, hq, -, hu⟩ := entry_origin ht hc hv
      obtain ⟨-, hvers, -⟩ := of_unflagged_eq_release hu
      rw [hvers]
      cases i with
      | true =>
        cases hq.op
        decide
      | false =>
        obtain ⟨r, hr⟩ := hq.ok
        rw [hl] at hr
        cases hr
  obtain ⟨c', hc'⟩ := (publishContents_ok (p := { foo with vers := extra }) (c := abcHash [])).mpr
    hlacks
  obtain ⟨s, hs, hresult'⟩ := Option.map_eq_some_iff.mp
    (exec_writes (L := Libs.canonical) (i := false) (rfl : twice false = _) hl hc')
  have hp' : Published twice s true { foo with vers := plain } (abcHash []) :=
    Run.exec_invariant (fun _ _ _ hI hstep => Published.step hI hstep) hs hp
  exact ⟨s, Run.exec_append_eq_some.mpr ⟨t, ht, hs⟩, hp', rfl, allowed_twice false, _, hresult'⟩

/-- After them the file has 1.0.7 and 1.0.7+extra. -/
theorem build_metadata_listed_twice : ∃ labels s,
    Run.exec (step Libs.canonical twice) (initial fun _ => none) labels = some s ∧
      ¬ UniqueIgnoringBuild Libs.canonical s.files := by
  obtain ⟨s, hs, hp, hq⟩ := both_published
  refine ⟨_, s, hs, fun hunique => ?_⟩
  have hsame : plain = extra := vers_eq_of_unique hs hunique hp hq rfl rfl
  exact absurd hsame (by decide)

/-- Such a file has one entry of each of the two versions. -/
theorem versions_unique_twice : ∃ labels s,
    Run.exec (step Libs.canonical twice) (initial fun _ => none) labels = some s ∧
      Distinct Libs.canonical s.files := by
  obtain ⟨s, hs, -, -⟩ := both_published
  exact ⟨_, s, hs, (versions_unique Libs.canonical twice _ s hs).1⟩

end FsIndex

end Freighter
