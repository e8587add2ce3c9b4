import Freighter.FsIndex.Machine

/-!
# What an index is for

An index maps the versions of crates to their checksums and flags. `answer` and `next` are what each
call returns and does; an index may word its refusals (`Refusals`) its own way.

* **`isSome_final`**: after a run of calls an index knows the versions that were published.
-/

namespace Freighter

open FsIndex (IndexOp Outcome)

/-- What is known of each version of each crate. -/
abbrev Catalog : Type := String → Version → Option CrateVersionExists

namespace Catalog

/-- The errors of a publish of a version that is there, and of a yank of one that is not. -/
structure Refusals where
  duplicate : Publish → IndexError
  missing : IndexError

def empty : Catalog := fun _ _ => none

def set (c : Catalog) (name : String) (version : Version) (e : CrateVersionExists) : Catalog :=
  fun n v => if n = name ∧ v = version then some e else c n v

/-- What a call returns. -/
def answer (r : Refusals) (c : Catalog) : IndexOp → Outcome
  | .publish p _ => if (c p.name p.vers).isSome then .error (r.duplicate p) else .ok .done
  | .yank name version _ => if (c name version).isSome then .ok .done else .error r.missing
  | .confirm name version =>
    match c name version with
    | none => .error .notFound
    | some e => .ok (.found e)

/-- What a call leaves. -/
def next (c : Catalog) : IndexOp → Catalog
  | .publish p tarballChecksum =>
    if (c p.name p.vers).isSome then c else c.set p.name p.vers ⟨false, tarballChecksum⟩
  | .yank name version flag =>
    match c name version with
    | none => c
    | some e => c.set name version { e with yanked := flag }
  | .confirm _ _ => c

def step (r : Refusals) (c : Catalog) (op : IndexOp) : Outcome × Catalog :=
  (c.answer r op, c.next op)

variable {c : Catalog} {name n : String} {version v : Version} {e : CrateVersionExists}

theorem set_self : c.set name version e name version = some e := if_pos ⟨rfl, rfl⟩

/-- The versions of the crate that is set. -/
theorem set_name : c.set name version e name v = if v = version then some e else c name v := by
  simp [set]

theorem set_of_ne (h : ¬ (n = name ∧ v = version)) : c.set name version e n v = c n v := if_neg h

section Step

variable (r : Refusals) {p : Publish} (ck : Checksum) (flag : Bool)

theorem step_publish_known (h : c p.name p.vers ≠ none) :
    c.step r (.publish p ck) = (.error (r.duplicate p), c) := by
  have hs : (c p.name p.vers).isSome = true := Option.isSome_iff_ne_none.mpr h
  simp only [step, answer, next, if_pos hs]

theorem step_publish_new (h : c p.name p.vers = none) :
    c.step r (.publish p ck) = (.ok .done, c.set p.name p.vers ⟨false, ck⟩) := by
  simp [step, answer, next, h]

theorem step_yank_missing (h : c name version = none) :
    c.step r (.yank name version flag) = (.error r.missing, c) := by
  simp [step, answer, next, h]

theorem step_yank_found (h : c name version = some e) :
    c.step r (.yank name version flag) =
      (.ok .done, c.set name version { e with yanked := flag }) := by
  simp [step, answer, next, h]

end Step

/-- The call publishes the version. -/
def Publishes (name : String) (version : Version) (op : IndexOp) : Prop :=
  ∃ p ck, op = .publish p ck ∧ p.name = name ∧ p.vers = version

theorem publishes_publish {p : Publish} {ck : Checksum} :
    Publishes name version (.publish p ck) ↔ p.name = name ∧ p.vers = version := by
  constructor
  · rintro ⟨q, ck', h, hq⟩
    cases h
    exact hq
  · exact fun h => ⟨p, ck, rfl, h⟩

theorem not_publishes_yank {flag : Bool} : ¬ Publishes name version (.yank n v flag) := by
  rintro ⟨p, ck, h, -⟩
  cases h

theorem not_publishes_confirm : ¬ Publishes name version (.confirm n v) := by
  rintro ⟨p, ck, h, -⟩
  cases h

theorem isSome_set : (c.set n v e name version).isSome ↔
    (c name version).isSome ∨ n = name ∧ v = version := by
  by_cases h : name = n ∧ version = v
  · obtain ⟨rfl, rfl⟩ := h
    simp [set_self]
  · rw [set_of_ne h]
    refine ⟨Or.inl, ?_⟩
    rintro (hc | ⟨rfl, rfl⟩)
    · exact hc
    · exact absurd ⟨rfl, rfl⟩ h

/-- Only a publish makes a version known, and none makes it unknown. -/
theorem isSome_next (op : IndexOp) : (c.next op name version).isSome ↔
    (c name version).isSome ∨ Publishes name version op := by
  cases op with
  | publish p ck =>
    rw [publishes_publish]
    simp only [next]
    by_cases hs : (c p.name p.vers).isSome = true
    · rw [if_pos hs]
      refine ⟨Or.inl, ?_⟩
      rintro (h | ⟨rfl, rfl⟩)
      · exact h
      · exact hs
    · rw [if_neg hs, isSome_set]
  | yank name' version' flag =>
    simp only [next, not_publishes_yank, or_false]
    cases hc : c name' version' with
    | none => rfl
    | some e =>
      simp only
      rw [isSome_set, or_iff_left_of_imp]
      rintro ⟨rfl, rfl⟩
      rw [hc]
      rfl
  | confirm name' version' => simp only [next, not_publishes_confirm, or_false]

/-- **What was published is known.** -/
theorem isSome_final (r : Refusals) (c : Catalog) (ops : List IndexOp) :
    (Run.final (step r) c ops name version).isSome ↔
      (c name version).isSome ∨ ∃ op ∈ ops, Publishes name version op := by
  induction ops generalizing c with
  | nil => simp
  | cons op ops ih =>
    rw [Run.final_cons, ih]
    change (c.next op name version).isSome = true ∨ _ ↔ _
    rw [isSome_next, or_assoc, List.exists_mem_cons_iff]

end Catalog

end Freighter
