import Freighter.Server.Stands

/-!
# Concurrent requests as one after another

As long as no publish fails in its index write, concurrent requests are answered as the registry
answers them one at a time.

* `order`: the requests of a run, in the order in which their answers are decided;
* **`linearizable_server`**: their answers in that order.
-/

namespace Freighter

namespace Server

open Registry (Represents)

variable {ι : Type} [DecidableEq ι]

/-! ## Runs -/

section Runs

variable (L : Libs) (sha256 : Bytes → Checksum) (reqs : ι → Request)

/-- The requests of a run in the order in which their answers are decided, with what failed. -/
def order (labels : List (Label ι)) : List (ι × Faults) :=
  Run.history (step L sha256 reqs) (State.decided reqs) Label.request Label.faults initial labels

omit [DecidableEq ι] in
theorem stands_initial : Stands L sha256 reqs (initial : State ι) Registry.empty where
  index := FsIndex.inv_initial _
  served := served_initial
  stores := ⟨fun _ => none, Registry.represents_empty, fun _ _ => rfl⟩
  pending _ _ _ _ _ _ hw := by cases hw
  running _ := Or.inl rfl
  stored _ h := by cases h
  found _ _ _ _ _ h := by cases h

variable {L sha256 reqs} {s : State ι} {reg : Registry}

omit [DecidableEq ι] in
/-- Where all requests are answered, the stores are those of the registry. -/
theorem Stands.represents (h : Stands L sha256 reqs s reg)
    (hanswered : ∀ i, ∃ r, s.stage i = .answered r) :
    Represents L sha256 s.index.files s.bucket reg := by
  obtain ⟨bucket, hrep, hbucket⟩ := h.stores
  have hsame : s.bucket = bucket := by
    funext path
    refine hbucket path fun ⟨j, l, c, _, _, _, hw, _⟩ => ?_
    obtain ⟨r, hr⟩ := hanswered j
    rcases h.running j with hj | ⟨x, hj⟩
    · rw [hr] at hj
      cases hj
    · rw [hw] at hj
      cases hj
  rwa [hsame]

/-- `i` is in the list, before `j` if that is there at all. -/
def Precedes (l : List ι) (i j : ι) : Prop := ∃ l₁ l₂, l = l₁ ++ l₂ ∧ i ∈ l₁ ∧ j ∉ l₁

/-- **Concurrent requests are requests one after another.** Whatever the order of the steps and
whatever fails but for the index write of a publish: no request is answered but as the registry
answers it at its place in one order of the requests. That order keeps requests apart that did not
overlap; and when all are answered, the stores are those of the registry at its end. -/
theorem linearizable_server (L : Libs) (sha256 : Bytes → Checksum) (reqs : ι → Request)
    (labels : List (Label ι)) (s : State ι)
    (h : Run.exec (step L sha256 reqs) initial labels = some s)
    (hwrite : ∀ a ∈ labels, ¬ LosesWrite reqs a) :
    let calls := order L sha256 reqs labels
    let replies := Run.outputs (atOnce sha256 reqs) Registry.empty calls
    (calls.map Prod.fst).Nodup ∧
    (∀ i r, s.stage i = .answered r → (i, r) ∈ (calls.map Prod.fst).zip replies) ∧
    (∀ before after t i r j, labels = before ++ after →
      Run.exec (step L sha256 reqs) initial before = some t → t.stage i = .answered r →
      t.index.pc j = .idle → Precedes (calls.map Prod.fst) i j) ∧
    ((∀ i, ∃ r, s.stage i = .answered r) → Represents L sha256 s.index.files s.bucket
      (Run.final (atOnce sha256 reqs) Registry.empty calls)) := by
  intro calls replies
  have hrun : ∀ labels s, Run.exec (step L sha256 reqs) initial labels = some s →
      (∀ a ∈ labels, ¬ LosesWrite reqs a) →
      let calls := order L sha256 reqs labels
      Stands L sha256 reqs s (Run.final (atOnce sha256 reqs) Registry.empty calls) ∧
      (calls.map Prod.fst).Nodup ∧ ∀ i r, s.decided reqs i = some r ↔
        (i, r) ∈ (calls.map Prod.fst).zip
          (Run.outputs (atOnce sha256 reqs) Registry.empty calls) := fun labels s h hwrite =>
    Run.linearize (fun s reg a s' hR hlose hs => simulates_step hR hlose hs) h hwrite
      (stands_initial L sha256 reqs) fun _ => rfl
  have hanswered : ∀ {t : State ι} {i r}, t.stage i = .answered r → t.decided reqs i = some r := by
    intro t i r ht
    rw [State.decided, ht]
    rfl
  obtain ⟨hstands, hnodup, hanswers⟩ := hrun labels s h hwrite
  refine ⟨hnodup, fun i r hr => (hanswers i r).mp (hanswered hr), ?_, hstands.represents⟩
  rintro before after t i r j rfl ht hi hj
  obtain ⟨hbefore, -, hfirst⟩ := hrun before t ht fun a ha => hwrite a (List.mem_append_left _ ha)
  have hcalls : calls = order L sha256 reqs before ++ _ := Run.history_append ht after
  refine ⟨(order L sha256 reqs before).map Prod.fst, _, by rw [hcalls, List.map_append], ?_, ?_⟩
  · exact (List.of_mem_zip ((hfirst i r).mp (hanswered hi))).1
  · intro hmem
    obtain ⟨x, hx⟩ := Run.exists_mem_zip
      ((List.length_map _).trans (Run.length_outputs _ Registry.empty _).symm) hmem
    have hopen : t.decided reqs j = none := by
      rw [State.decided, hj, hbefore.running_of_unreturned (by rw [hj]; simp)]
      rfl
    rw [← hfirst, hopen] at hx
    cases hx

end Runs

/-- The publish is answered as the registry answers it, while the download holds the lock. -/
theorem linearizable_server_fetched :
    let calls := order Libs.canonical abcHash fetched fetch
    (true, Reply.done) ∈ (calls.map Prod.fst).zip
      (Run.outputs (atOnce abcHash fetched) Registry.empty calls) := by
  have hfacts : (Run.exec (step Libs.canonical abcHash fetched) initial fetch).any (fun s =>
      decide (s.stage true = .answered .done)) = true := by
    decide +kernel
  obtain ⟨t, ht, hstage⟩ := (Option.any_eq_true _ _).mp hfacts
  have hwrite : ∀ a ∈ fetch, ¬ LosesWrite fetched a := by
    rintro a ha ⟨i, json, crateBytes, -, rfl⟩
    simp [fetch] at ha
  exact (linearizable_server Libs.canonical abcHash fetched fetch t ht hwrite).2.1 true .done
    (of_decide_eq_true hstage)

end Server

end Freighter
