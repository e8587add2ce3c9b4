import Freighter.Server.Refinement

/-!
# What becomes of a release

A release that was published stays: its tarball is what was sent, and its entry what was sent but
for the flag.

* `Effect`: what a request does to the registry, by its answer; `effect_serve`;
* `lastFlag`: the flag that the requests of a run leave;
* **`release_stays`**: after any run of the server the stores have the release.
-/

namespace Freighter

namespace Registry

open FsIndex (accessCrate CrateMetaPath)
open Routes (Answer AuthProvider Backend CrateRoute Extractors Failure Handler ServiceConfig
  decodeBody)

variable {α ε : Type} (L : Libs) (sha256 : Bytes → Checksum) (cfg : ServiceConfig)
  (X : Extractors) (A : Server.Io → AuthProvider α ε)

/-! ## What a request does -/

/-- The flag and the path of `yank` and `unyank`. -/
def flagged : CrateRoute → Option (Bool × String)
  | .yank path => some (true, path)
  | .unyank path => some (false, path)
  | _ => none

/-- What a request does to the registry, by its answer. -/
inductive Effect (reg : Registry) (c : Call) : Except (Failure ε) Answer → Registry → Prop
  | published {body : Bytes} {json : Publish} {tarball : Bytes} {m : CrateMetaPath}
      (hroute : c.route = .publish body)
      (hbody : (decodeBody L body : Except (Failure ε) _) = .ok (json, tarball))
      (hm : accessCrate json.name = .ok m) (hmissing : find (reg m.key) json.vers = none) :
      Effect reg c (.ok (.published .noWarnings))
        (Function.update reg m.key
          (reg m.key ++ [⟨FsIndex.release json (sha256 tarball), tarball⟩]))
  | flagged {flag : Bool} {path name : String} {version : Version} {m : CrateMetaPath}
      (hroute : flagged c.route = some (flag, path))
      (hpath : X.nameAndVersion path = .ok (name, version)) (hm : accessCrate name = .ok m) :
      Effect reg c (.ok .yanked)
        (Function.update reg m.key ((reg m.key).map (setYanked version flag)))
  | unchanged {out : Except (Failure ε) Answer} (hpublished : ∀ r, out ≠ .ok (.published r))
      (hyanked : out ≠ .ok .yanked) : Effect reg c out reg

variable {L sha256 cfg X A} {faults : Faults} {reg reg' : Registry} {name : String}

theorem crate_eq_ok {x : String × List Release} (h : crate faults reg name = .ok x) :
    ∃ m, accessCrate name = .ok m ∧ x = (m.key, reg m.key) := by
  unfold crate at h
  cases hm : accessCrate name with
  | error e =>
    rw [hm] at h
    cases h
  | ok m =>
    simp only [hm] at h
    split_ifs at h
    cases h
    exact ⟨m, rfl, rfl⟩

theorem publish_ok {json : Publish} {tarball : Bytes} {r : CompletedPublication}
    (h : publish sha256 faults json tarball reg = (.ok r, reg')) :
    r = .noWarnings ∧ ∃ m, accessCrate json.name = .ok m ∧ find (reg m.key) json.vers = none ∧
      reg' = Function.update reg m.key
        (reg m.key ++ [⟨FsIndex.release json (sha256 tarball), tarball⟩]) := by
  unfold publish at h
  cases hc : crate faults reg json.name with
  | error e =>
    rw [hc] at h
    cases h
  | ok x =>
    obtain ⟨m, hm, rfl⟩ := crate_eq_ok hc
    simp only [hc] at h
    cases hfound : find (reg m.key) json.vers with
    | some r' =>
      rw [hfound] at h
      cases h
    | none =>
      simp only [hfound] at h
      split_ifs at h <;> cases h
      exact ⟨rfl, m, hm, hfound, rfl⟩

theorem publish_error {json : Publish} {tarball : Bytes} {e : IndexError}
    (h : (publish sha256 faults json tarball reg).1 = .error e) :
    (publish sha256 faults json tarball reg).2 = reg := by
  unfold publish at h ⊢
  cases hc : crate faults reg json.name with
  | error e => rfl
  | ok x =>
    simp only [hc] at h ⊢
    cases hfound : find x.2 json.vers with
    | some r => rfl
    | none =>
      simp only [hfound] at h ⊢
      split_ifs at h ⊢
      rfl

theorem yank_ok {flag : Bool} {version : Version}
    (h : yank faults flag name version reg = (.ok (), reg')) :
    ∃ m, accessCrate name = .ok m ∧
      reg' = Function.update reg m.key ((reg m.key).map (setYanked version flag)) := by
  unfold yank at h
  cases hc : crate faults reg name with
  | error e =>
    rw [hc] at h
    cases h
  | ok x =>
    obtain ⟨m, hm, rfl⟩ := crate_eq_ok hc
    simp only [hc] at h
    cases hfound : find (reg m.key) version with
    | none =>
      rw [hfound] at h
      cases h
    | some r =>
      simp only [hfound] at h
      split_ifs at h <;> cases h
      exact ⟨m, hm, rfl⟩

theorem yank_error {flag : Bool} {version : Version} {e : IndexError}
    (h : (yank faults flag name version reg).1 = .error e) :
    (yank faults flag name version reg).2 = reg := by
  unfold yank at h ⊢
  cases hc : crate faults reg name with
  | error e => rfl
  | ok x =>
    simp only [hc] at h ⊢
    cases hfound : find x.2 version with
    | none => rfl
    | some r =>
      simp only [hfound] at h ⊢
      split_ifs at h ⊢
      rfl

/-! ## Requests -/

section Requests

variable {headers : HeaderMap} {β : Type}

theorem keeps_onAuth (x : Tx α ε β) :
    Tx.Keeps (Routes.onAuth x : Handler α Registry Unit ε β) := Tx.keeps_onFst _

theorem keeps_whenAuthRequired {check : Handler α Registry Unit ε Unit} (h : Tx.Keeps check) :
    Tx.Keeps (Routes.whenAuthRequired cfg check) := by
  unfold Routes.whenAuthRequired
  split_ifs
  · exact h
  · exact Tx.keeps_answer ()

theorem sparseEntry_snd : ((backend sha256 faults : Backend _ _ ε).sparseEntry name (reg, ())).2 =
    (reg, ()) := by
  change ((Tx.mapError indexFailure (sparseEntry faults name)).onFst (reg, ())).2 = _
  rw [Tx.onFst_mapError]
  unfold sparseEntry
  rcases crate faults reg name with e | ⟨key, _ | ⟨r, rs⟩⟩ <;> rfl

theorem download_snd (version : Version) :
    ((backend sha256 faults : Backend _ _ ε).download name version (reg, ())).2 = (reg, ()) := by
  simp only [backend, Tx.onFst, download]
  rcases crate faults reg name with e | ⟨key, releases⟩
  · rfl
  · simp only
    cases find releases version with
    | none => rfl
    | some r => simp only; split_ifs <;> rfl

variable {B : AuthProvider α ε} {body : Bytes} {path : String}

theorem keeps_config :
    Tx.Keeps (Routes.config cfg B headers : Handler α Registry Unit ε RegistryConfig) :=
  Tx.Keeps.bind (keeps_whenAuthRequired ((Tx.keeps_lift _).bind fun _ => keeps_onAuth _))
    fun _ => Tx.keeps_answer _

theorem keeps_getSparseMeta :
    Tx.Keeps ((backend sha256 faults).getSparseMeta cfg X B headers path) := by
  refine (Tx.keeps_lift _).bind fun crateIndexPath => ?_
  cases Routes.rsplitOnce crateIndexPath with
  | none => exact Tx.keeps_fail _
  | some x =>
    refine (keeps_whenAuthRequired ((Tx.keeps_lift _).bind fun _ => keeps_onAuth _)).bind
      fun _ => ?_
    exact (Tx.keeps_onSnd fun _ => sparseEntry_snd).bind fun _ => Tx.keeps_answer _

theorem keeps_serveCrate :
    Tx.Keeps ((backend sha256 faults).serveCrate cfg X B headers path) := by
  refine (Tx.keeps_lift _).bind fun x => ?_
  refine (keeps_whenAuthRequired ((Tx.keeps_lift _).bind fun _ => keeps_onAuth _)).bind
    fun _ => ?_
  exact Tx.keeps_onSnd fun _ => download_snd x.2

theorem backend_publish (json : Publish) (tarball : Bytes) :
    (backend sha256 faults : Backend _ _ ε).publish json tarball =
      Tx.onFst (Tx.mapError indexFailure (publish sha256 faults json tarball)) := rfl

theorem backend_yank (flag : Bool) (name : String) (version : Version) :
    (backend sha256 faults : Backend _ _ ε).yank flag name version =
      Tx.onFst (Tx.mapError indexFailure (yank faults flag name version)) := rfl

theorem keeps_publishCrate :
    Tx.KeepsOnError ((backend sha256 faults).publishCrate L cfg B headers body) := by
  unfold Backend.publishCrate
  split_ifs
  · exact (Tx.keeps_fail _).onError
  · refine (Tx.keeps_lift _).bind_onError fun _ => (Tx.keeps_lift _).bind_onError fun x => ?_
    refine (keeps_onAuth _).bind_onError fun _ => ?_
    rw [backend_publish]
    exact Tx.keepsOnError_onSnd fun w e => Tx.onFst_mapError_error fun reg e => publish_error

theorem keeps_yankCrate (flag : Bool) :
    Tx.KeepsOnError ((backend sha256 faults).yankCrate X B headers flag path) := by
  refine (Tx.keeps_lift _).bind_onError fun x => (Tx.keeps_lift _).bind_onError fun _ => ?_
  refine (keeps_onAuth _).bind_onError fun _ => ?_
  rw [backend_yank]
  exact Tx.keepsOnError_onSnd fun w e => Tx.onFst_mapError_error fun reg e => yank_error

/-- What an access check that passes leaves. -/
theorem snd_of_onAuth {x : Tx α ε Unit} {s s' : α × Registry × Unit}
    (h : (Routes.onAuth x : Handler α Registry Unit ε Unit) s = (.ok (), s')) : s'.2 = s.2 := by
  have hs := keeps_onAuth x s
  rwa [h] at hs

theorem publishCrate_ok {s s' : α × Registry × Unit} {r : CompletedPublication}
    (h : (backend sha256 faults).publishCrate L cfg B headers body s = (.ok r, s')) :
    r = .noWarnings ∧ ∃ json tarball m,
      (decodeBody L body : Except (Failure ε) _) = .ok (json, tarball) ∧
      accessCrate json.name = .ok m ∧ find (s.2.1 m.key) json.vers = none ∧
      s'.2.1 = Function.update s.2.1 m.key
        (s.2.1 m.key ++ [⟨FsIndex.release json (sha256 tarball), tarball⟩]) := by
  unfold Backend.publishCrate at h
  split_ifs at h
  · cases h
  · obtain ⟨token, s₁, htoken, hrest⟩ := Tx.bind_eq_ok.mp h
    obtain ⟨⟨json, tarball⟩, s₂, hdecode, hrest⟩ := Tx.bind_eq_ok.mp hrest
    obtain ⟨u, s₃, hauth, hlast⟩ := Tx.bind_eq_ok.mp hrest
    obtain ⟨-, rfl⟩ := Tx.lift_eq_ok.mp htoken
    obtain ⟨hbody, rfl⟩ := Tx.lift_eq_ok.mp hdecode
    rw [backend_publish] at hlast
    obtain ⟨hpublish, -⟩ := Tx.onFst_mapError_eq_ok.mp (Tx.onSnd_eq_ok.mp hlast).1
    obtain ⟨hr, m, hm, hmissing, hreg⟩ := publish_ok hpublish
    rw [snd_of_onAuth hauth] at hmissing hreg
    exact ⟨hr, json, tarball, m, hbody, hm, hmissing, hreg⟩

theorem yankCrate_ok {s s' : α × Registry × Unit} {flag : Bool}
    (h : (backend sha256 faults).yankCrate X B headers flag path s = (.ok (), s')) :
    ∃ name version m, X.nameAndVersion path = .ok (name, version) ∧ accessCrate name = .ok m ∧
      s'.2.1 = Function.update s.2.1 m.key ((s.2.1 m.key).map (setYanked version flag)) := by
  obtain ⟨⟨name, version⟩, s₁, hextract, hrest⟩ := Tx.bind_eq_ok.mp h
  obtain ⟨token, s₂, htoken, hrest⟩ := Tx.bind_eq_ok.mp hrest
  obtain ⟨u, s₃, hauth, hlast⟩ := Tx.bind_eq_ok.mp hrest
  obtain ⟨hpath, rfl⟩ := Tx.lift_eq_ok.mp hextract
  obtain ⟨-, rfl⟩ := Tx.lift_eq_ok.mp htoken
  rw [backend_yank] at hlast
  obtain ⟨hyank, -⟩ := Tx.onFst_mapError_eq_ok.mp (Tx.onSnd_eq_ok.mp hlast).1
  obtain ⟨m, hm, hreg⟩ := yank_ok hyank
  rw [snd_of_onAuth hauth] at hreg
  refine ⟨name, version, m, ?_, hm, hreg⟩
  cases hx : X.nameAndVersion path with
  | error e =>
    rw [hx] at hpath
    cases hpath
  | ok x =>
    rw [hx] at hpath
    cases hpath
    rfl

variable {c : Call}

/-- A request that leaves the registry, and answers neither a publish nor a yank. -/
theorem effect_of_keeps {x : Handler α Registry Unit ε β} (h : Tx.Keeps x) {f : β → Answer}
    (hpublished : ∀ b r, f b ≠ .published r) (hyanked : ∀ b, f b ≠ .yanked)
    (s : α × Registry × Unit) :
    Effect L sha256 X s.2.1 c ((x >>= fun b => Tx.answer (f b)) s).1
      ((x >>= fun b => Tx.answer (f b)) s).2.2.1 := by
  have hs : (x s).2.2 = s.2 := h s
  rcases hx : x s with ⟨e | b, s'⟩ <;> rw [hx] at hs
  · rw [Tx.bind_of_error hx, hs]
    exact .unchanged nofun nofun
  · rw [Tx.bind_of_ok hx, ← hs]
    exact .unchanged (fun r hr => hpublished b r (Except.ok.inj hr))
      fun hr => hyanked b (Except.ok.inj hr)

/-- The same for a request that fails. -/
theorem effect_of_error {x : Handler α Registry Unit ε β} (h : Tx.KeepsOnError x)
    {f : β → Handler α Registry Unit ε Answer} {s s' : α × Registry × Unit} {e : Failure ε}
    (hx : x s = (.error e, s')) :
    Effect L sha256 X s.2.1 c ((x >>= f) s).1 ((x >>= f) s).2.2.1 := by
  have hs := h s e (by rw [hx])
  rw [hx] at hs
  rw [Tx.bind_of_error hx, hs]
  exact .unchanged nofun nofun

theorem effect_yank {flag : Bool} (hroute : flagged c.route = some (flag, path))
    (s : α × Registry × Unit) :
    let x : Handler α Registry Unit ε Answer :=
      (backend sha256 faults).yankCrate X B headers flag path >>= fun _ => Tx.answer .yanked
    Effect L sha256 X s.2.1 c (x s).1 (x s).2.2.1 := by
  intro x
  rcases hx : (backend sha256 faults).yankCrate X B headers flag path s with ⟨e | u, s'⟩
  · exact effect_of_error (keeps_yankCrate flag) hx
  · obtain ⟨name, version, m, hpath, hm, hreg⟩ := yankCrate_ok hx
    have hanswer : x s = (.ok .yanked, s') := Tx.bind_of_ok hx
    rw [hanswer, hreg]
    exact .flagged hroute hpath hm

variable (L sha256 cfg X A) in
/-- **What a request does to the registry.** -/
theorem effect_serve (s : α × Registry × Unit) (c : Call) :
    Effect L sha256 X s.2.1 c (serve L sha256 cfg X A s c).1
      (serve L sha256 cfg X A s c).2.2.1 := by
  unfold serve Backend.handle
  cases hroute : c.route with
  | config =>
    exact effect_of_keeps (f := .config) keeps_config (fun _ _ => nofun) (fun _ => nofun) s
  | getSparseMeta path =>
    exact effect_of_keeps (f := .sparse) keeps_getSparseMeta (fun _ _ => nofun) (fun _ => nofun) s
  | serveCrate path =>
    exact effect_of_keeps (f := .crate) keeps_serveCrate (fun _ _ => nofun) (fun _ => nofun) s
  | publish body =>
    rcases hx : (backend sha256 (faultsOf c.io c.newFails)).publishCrate L cfg (A c.io) c.headers
      body s with ⟨e | r, s'⟩
    · exact effect_of_error keeps_publishCrate hx
    · obtain ⟨rfl, json, tarball, m, hbody, hm, hmissing, hreg⟩ := publishCrate_ok hx
      simp only
      rw [Tx.bind_of_ok hx]
      change Effect L sha256 X s.2.1 c (.ok (.published .noWarnings)) s'.2.1
      rw [hreg]
      exact .published hroute hbody hm hmissing
  | yank path => exact effect_yank (by rw [hroute]; rfl) s
  | unyank path => exact effect_yank (by rw [hroute]; rfl) s

end Requests

/-! ## Runs -/

section Runs

variable (X) in
/-- The flag of a version of a crate after a request, by its answer. -/
def nextFlag (key : String) (version : Version) (flag : Bool) (c : Call)
    (out : Except (Failure ε) Answer) : Bool :=
  match out, flagged c.route with
  | .ok .yanked, some (flag', path) =>
    match X.nameAndVersion path with
    | .ok (name, version') =>
      if toAsciiLowercase name = key ∧ version' = version then flag' else flag
    | .error _ => flag
  | _, _ => flag

variable (X) in
/-- The flag after the requests of a run: the last one that was set. -/
def lastFlag (key : String) (version : Version) (flag : Bool) :
    List Call → List (Except (Failure ε) Answer) → Bool
  | c :: cs, out :: outs => lastFlag key version (nextFlag X key version flag c out) cs outs
  | _, _ => flag

/-- The release, with this flag. -/
def withFlag (flag : Bool) (r : Release) : Release :=
  { r with entry := { r.entry with yanked := flag } }

variable {key : String} {r : Release} {version : Version} {c : Call}
  {out : Except (Failure ε) Answer}

theorem find_append (releases : List Release) (h : find releases version = some r) (r' : Release) :
    find (releases ++ [r']) version = some r := by
  unfold find at h ⊢
  rw [List.find?_append, h]
  rfl

/-- The release of a version, after the flag of one was set. -/
theorem find_setYanked (releases : List Release) (version' : Version) (flag : Bool)
    (h : find releases version = some r) :
    find (releases.map (setYanked version' flag)) version =
      some (if version' = version then withFlag flag r else r) := by
  induction releases with
  | nil => cases h
  | cons r' rs ih =>
    by_cases hv : r'.entry.vers = version
    · rw [find_cons_self hv] at h
      cases h
      rw [List.map_cons, find_cons_self ((setYanked_entry flag _).2.1.trans hv), setYanked, hv]
      simp only [eq_comm (a := version)]
      rfl
    · rw [find_cons_of_ne hv] at h
      rw [List.map_cons, find_cons_of_ne fun he => hv ((setYanked_entry flag r').2.1.symm.trans he)]
      exact ih h

/-- **What a request makes of a release.** -/
theorem find_of_effect (h : Effect L sha256 X reg c out reg')
    (hr : find (reg key) version = some (withFlag flag r)) :
    find (reg' key) version =
      some (withFlag (nextFlag X key version flag c out) r) := by
  cases h with
  | @published body json tarball m hroute hbody hm hmissing =>
    have hflag : nextFlag X key version flag c
        (.ok (.published .noWarnings) : Except (Failure ε) _) = flag := rfl
    rw [hflag]
    rcases eq_or_ne key m.key with rfl | hkey
    · rw [Function.update_self]
      exact find_append _ hr _
    · rwa [Function.update_of_ne hkey]
  | @flagged flag' path name version' m hroute hpath hm =>
    have hlower := (FsIndex.accessCrate_eq_ok.mp hm).1
    have hflag : nextFlag X key version flag c (.ok .yanked : Except (Failure ε) _) =
        if m.key = key ∧ version' = version then flag' else flag := by
      simp only [nextFlag, hroute, hpath, hlower]
    rw [hflag]
    rcases eq_or_ne key m.key with rfl | hkey
    · rw [Function.update_self, find_setYanked _ _ _ hr]
      simp only [true_and]
      split_ifs <;> rfl
    · rw [Function.update_of_ne hkey, if_neg fun h => hkey h.1.symm]
      exact hr
  | unchanged hpublished hyanked =>
    have hflag : nextFlag X key version flag c out = flag := by
      unfold nextFlag
      split
      · exact absurd rfl hyanked
      · rfl
    rwa [hflag]

/-- A release that has just been published. -/
theorem find_of_published (h : Effect L sha256 X reg c out reg') {res : CompletedPublication}
    (hout : out = .ok (.published res)) {body : Bytes} {json : Publish} {tarball : Bytes}
    (hroute : c.route = .publish body)
    (hbody : (decodeBody L body : Except (Failure ε) _) = .ok (json, tarball)) :
    ∃ m, accessCrate json.name = .ok m ∧ find (reg' m.key) json.vers =
      some (withFlag false ⟨FsIndex.release json (sha256 tarball), tarball⟩) := by
  cases h with
  | @published body' json' tarball' m hroute' hbody' hm hmissing =>
    cases hroute.symm.trans hroute'
    cases hbody.symm.trans hbody'
    refine ⟨m, hm, ?_⟩
    unfold find at hmissing ⊢
    rw [Function.update_self, List.find?_append, hmissing]
    exact find_cons_self rfl
  | flagged hroute' hpath hm => cases hout
  | unchanged hpublished hyanked => exact absurd hout (hpublished res)

variable (L sha256 cfg X A) in
/-- **What a run makes of a release.** -/
theorem find_final {s : α × Registry × Unit} {flag : Bool} (calls : List Call)
    (hr : find (s.2.1 key) version = some (withFlag flag r)) :
    find ((Run.final (serve L sha256 cfg X A) s calls).2.1 key) version =
      some (withFlag (lastFlag X key version flag calls
        (Run.outputs (serve L sha256 cfg X A) s calls)) r) := by
  induction calls generalizing s flag with
  | nil => exact hr
  | cons c cs ih => exact ih (find_of_effect (effect_serve L sha256 cfg X A s c) hr)

/-! ## On the server -/

section Server

variable {files : FsIndex.Files} {bucket : S3.Bucket} {m : CrateMetaPath}
  {searchFiles : String → ℕ → Tx FsIndex.Files IndexError SearchResults}
  {listFiles : ListQuery → Tx FsIndex.Files IndexError ListAll}

/-- A release that the stores have is found under the name it was published with. -/
theorem pulled_of_find (h : Represents L sha256 files bucket reg) (hm : accessCrate name = .ok m)
    (hfound : find (reg m.key) version = some r) (hname : r.entry.name = name) :
    ((stores L sha256 {} false false searchFiles listFiles : Backend _ _ ε).download name version
      (files, bucket)).1 = .ok r.tarball := by
  rw [stores_download, confirmExistence_eq false h, crate_of_ok hm]
  simp only [faultsOf, hfound, Bool.false_eq_true, if_false]
  rw [pullCrate_eq h hm hfound, if_neg Bool.false_ne_true, if_pos hname]
  rfl

/-- And its entry is listed, as the only one of its version. -/
theorem listed_of_find (h : Represents L sha256 files bucket reg) (hm : accessCrate name = .ok m)
    (hfound : find (reg m.key) version = some r) :
    ∃ entries, ((stores L sha256 {} false false searchFiles listFiles : Backend _ _ ε).sparseEntry
        name (files, bucket)).1 = .ok entries ∧
      entries.find? (·.vers = version) = some r.entry ∧ (entries.map CrateVersion.vers).Nodup := by
  refine ⟨(reg m.key).map Release.entry, ?_, ?_, ?_⟩
  · obtain ⟨q, hq⟩ := h.deserialized_cons hm (List.ne_nil_of_mem (mem_of_find hfound).1)
    rw [stores_sparseEntry]
    simp only [FsIndex.getSparseEntry, hm, hq]
    rfl
  · rw [List.find?_map]
    exact congrArg (Option.map Release.entry) hfound
  · rw [List.map_map]
    exact h.unique m.key

/-- After a publish that was answered, and whatever follows, the stores stand for a registry that
has the release, with the last flag. -/
theorem find_after_publish (L : Libs) (sha256 : Bytes → Checksum) (cfg : ServiceConfig)
    (X : Extractors) (A : Server.Io → AuthProvider α ε)
    (searchFiles : String → ℕ → Tx FsIndex.Files IndexError SearchResults)
    (listFiles : ListQuery → Tx FsIndex.Files IndexError ListAll) (a : α)
    (before after : List Call) (c : Call)
    (hclean : ∀ c' ∈ before ++ c :: after, c'.io.deleteNewFails = false)
    {body : Bytes} {json : Publish} {tarball : Bytes} {res : CompletedPublication}
    (hroute : c.route = .publish body)
    (hbody : (decodeBody L body : Except (Failure ε) _) = .ok (json, tarball))
    (hout : (serveStores L sha256 cfg X A searchFiles listFiles
      (Run.final (serveStores L sha256 cfg X A searchFiles listFiles) (newStores a) before)
        c).1 = .ok (.published res)) :
    let serve := serveStores L sha256 cfg X A searchFiles listFiles
    let s := Run.final serve (newStores a) (before ++ [c])
    let w := (Run.final serve s after).2
    let flag := lastFlag X (toAsciiLowercase json.name) json.vers false after
      (Run.outputs serve s after)
    ∃ reg m, Represents L sha256 w.1 w.2 reg ∧ accessCrate json.name = .ok m ∧
      find (reg m.key) json.vers =
        some (withFlag flag ⟨FsIndex.release json (sha256 tarball), tarball⟩) := by
  intro serve s w flag
  simp only [List.forall_mem_append, List.forall_mem_cons] at hclean
  obtain ⟨hbefore, hc, hafter⟩ := hclean
  -- The registry that the stores stand for, at the publish and at the end.
  obtain ⟨-, h₁⟩ := sim_run L sha256 cfg X A searchFiles listFiles (beside_new a) hbefore
  obtain ⟨hsame, h₂⟩ := sim_serve L sha256 cfg X A searchFiles listFiles _ _ c h₁ hc
  rw [← Run.final_concat, ← Run.final_concat] at h₂
  obtain ⟨houts, -, h₃⟩ := sim_run L sha256 cfg X A searchFiles listFiles h₂ hafter
  obtain ⟨⟨key, relPath⟩, hm, hnew⟩ := find_of_published (effect_serve L sha256 cfg X A _ c)
    (hsame.symm.trans hout) hroute hbody
  obtain rfl : key = toAsciiLowercase json.name := (FsIndex.accessCrate_eq_ok.mp hm).1
  rw [← Run.final_concat] at hnew
  have hfound := find_final L sha256 cfg X A after hnew
  rw [← houts] at hfound
  exact ⟨_, _, h₃, hm, hfound⟩

/-- **A release stays.** After a publish that was answered, and whatever requests, with whatever
failures but for that of a clean-up: the stores have the tarball that was sent, and one entry of the
version, which is what was sent, with the last flag that a yank or an unyank has set. -/
theorem release_stays (L : Libs) (sha256 : Bytes → Checksum) (cfg : ServiceConfig)
    (X : Extractors) (A : Server.Io → AuthProvider α ε)
    (searchFiles : String → ℕ → Tx FsIndex.Files IndexError SearchResults)
    (listFiles : ListQuery → Tx FsIndex.Files IndexError ListAll) (a : α)
    (before after : List Call) (c : Call)
    (hclean : ∀ c' ∈ before ++ c :: after, c'.io.deleteNewFails = false)
    {body : Bytes} {json : Publish} {tarball : Bytes} {res : CompletedPublication}
    (hroute : c.route = .publish body)
    (hbody : (decodeBody L body : Except (Failure ε) _) = .ok (json, tarball))
    (hout : (serveStores L sha256 cfg X A searchFiles listFiles
      (Run.final (serveStores L sha256 cfg X A searchFiles listFiles) (newStores a) before)
        c).1 = .ok (.published res)) :
    let serve := serveStores L sha256 cfg X A searchFiles listFiles
    let s := Run.final serve (newStores a) (before ++ [c])
    let w := (Run.final serve s after).2
    let flag := lastFlag X (toAsciiLowercase json.name) json.vers false after
      (Run.outputs serve s after)
    let B : Backend _ _ ε := stores L sha256 {} false false searchFiles listFiles
    (B.download json.name json.vers w).1 = .ok tarball ∧
      ∃ entries, (B.sparseEntry json.name w).1 = .ok entries ∧
        entries.find? (·.vers = json.vers) =
          some { FsIndex.release json (sha256 tarball) with yanked := flag } ∧
        (entries.map CrateVersion.vers).Nodup := by
  intro serve s w flag B
  obtain ⟨reg, m, h, hm, hfound⟩ := find_after_publish L sha256 cfg X A searchFiles listFiles a
    before after c hclean hroute hbody hout
  exact ⟨pulled_of_find h hm hfound rfl, listed_of_find h hm hfound⟩

end Server

end Runs

/-! ## `Foo` -/

section Foo

open FsAuth (tokenZero testHash tokenToStr)
open Routes (fooExtractors fsAuth openConfig)
open Server (authorizationOf capitalFoo registered request)

/-- What a request says is what the routes decode. -/
theorem decodeBody_of_receive {authorization : Option Bytes} {body tarball : Bytes} {token : String}
    {json : Publish} (h : Server.receive L authorization body = some (.ok (token, json, tarball))) :
    (decodeBody L body : Except (Failure ε) _) = .ok (json, tarball) := by
  unfold Server.receive at h
  unfold decodeBody
  cases hauth : Server.requireToken authorization with
  | error e => simp only [hauth, Option.some.injEq, reduceCtorEq] at h
  | ok t =>
    simp only [hauth] at h
    rcases hframe : Server.unframe body with _ | e | pieces <;> simp only [hframe] at h ⊢
    · cases h
    · cases h
    · cases hjson : (L.json.fromSlice pieces.1).bind (Publish.fromJson L) with
      | none => simp only [hjson, Option.some.injEq, reduceCtorEq] at h
      | some p =>
        simp only [hjson] at h
        cases h
        rfl

/-- The publish of `Foo`. -/
noncomputable def fooCall : Call where
  headers := [("authorization", (authorizationOf tokenZero).getD [])]
  route := .publish (request capitalFoo)

theorem decodeBody_foo : (decodeBody Libs.canonical (request capitalFoo) : Except (Failure ε) _) =
    .ok (capitalFoo, [97, 98, 99]) :=
  decodeBody_of_receive Server.receive_capitalFoo

theorem length_request : (request capitalFoo).length ≤ openConfig.crateSizeLimit := by
  decide +kernel

/-- What the server answers is answered by the routes. -/
theorem eq_of_response {β : Type} {x : Except (Failure AuthError) β ×
      (FsAuth.FsAuthProvider × FsIndex.Files × S3.Bucket)} {y : Server.Response β × Server.Stores}
    (h : x.map Routes.response id = y.map some Routes.parts) {b : β} {s : Server.Stores}
    (hy : y = (.ok b, s)) : x = (.ok b, Routes.parts s) := by
  subst hy
  obtain ⟨r, w⟩ := x
  obtain ⟨hr, rfl⟩ := Prod.mk.inj h
  rcases r with e | b'
  · cases e <;> cases hr
  · cases hr
    rfl

/-- A publish that the server answers is answered by the routes. -/
theorem published_of_server {hashToken : BareToken → HashedToken} {s s' : Server.Stores}
    {body : Bytes} {c : Call} {r : CompletedPublication}
    {searchFiles : String → ℕ → Tx FsIndex.Files IndexError SearchResults}
    {listFiles : ListQuery → Tx FsIndex.Files IndexError ListAll} (hroute : c.route = .publish body)
    (hsize : body.length ≤ cfg.crateSizeLimit)
    (h : Server.publish L hashToken sha256 c.io s (c.headers.lookup "authorization") body =
      (.ok r, s')) :
    serveStores L sha256 cfg X (fun io => fsAuth hashToken io.auth) searchFiles listFiles
      (Routes.parts s) c = (.ok (.published r), Routes.parts s') := by
  unfold serveStores
  rw [hroute]
  exact Tx.bind_of_ok (eq_of_response (Routes.publish_eq s hsize) h)

/-- And a yank. -/
theorem yanked_of_server {hashToken : BareToken → HashedToken} {s s' : Server.Stores}
    {path name : String} {version : Version} {c : Call}
    {searchFiles : String → ℕ → Tx FsIndex.Files IndexError SearchResults}
    {listFiles : ListQuery → Tx FsIndex.Files IndexError ListAll} (hroute : c.route = .yank path)
    (hpath : X.nameAndVersion path = .ok (name, version))
    (h : Server.yank L hashToken true c.io s (c.headers.lookup "authorization") name version =
      (.ok (), s')) :
    serveStores L sha256 cfg X (fun io => fsAuth hashToken io.auth) searchFiles listFiles
      (Routes.parts s) c = (.ok .yanked, Routes.parts s') := by
  have hyank : (Routes.yankWith X (fsAuth hashToken c.io.auth) c.headers
      (fun crateName version files =>
        FsIndex.yankInner L c.io.index files crateName version true) path :
          Handler _ _ S3.Bucket _ _) (Routes.parts s) = (.ok (), Routes.parts s') :=
    eq_of_response (Routes.yank_eq true s hpath) h
  unfold serveStores Routes.fsIndex
  rw [hroute]
  exact Tx.bind_of_ok hyank

/-- The server of the example. -/
noncomputable def serveFoo (cfg : ServiceConfig) (X : Extractors) :=
  serveStores Libs.canonical abcHash cfg X (fun io => fsAuth testHash io.auth)
    (fun _ _ => Tx.fail .serviceError) (fun _ => Tx.fail .serviceError)

/-- `user1` has published `Foo`. -/
structure HasFoo (s : Server.Stores) : Prop where
  auth : s.auth = (registered (AList.singleton "Foo" {"user1"})).auth
  file : FsIndex.contentsOf Libs.canonical s.files (FsIndex.keyPath "foo") =
    some ([FsIndex.release capitalFoo (abcHash [97, 98, 99])], some capitalFoo)

variable (cfg X) in
theorem published_foo (hsize : (request capitalFoo).length ≤ cfg.crateSizeLimit) :
    ∃ s, HasFoo s ∧ serveFoo cfg X (newStores (registered ∅).auth) fooCall =
      (.ok (.published .noWarnings), Routes.parts s) := by
  obtain ⟨s, hs, -, hauth, hfile⟩ := Server.created_capitalFoo
  have hacc : FsIndex.Accepts Libs.canonical {} (registered ∅).files capitalFoo :=
    ⟨⟨"foo", "index/3/f/foo"⟩, by decide, Or.inl rfl⟩
  have hok : (Server.publish Libs.canonical testHash abcHash {} (registered ∅)
      (authorizationOf tokenZero) (request capitalFoo)).1 = .ok .noWarnings :=
    Server.publish_succeeds Server.receive_capitalFoo (congrArg Prod.fst Server.auth_capitalFoo)
      hacc
  simp only [Server.handle, Server.publishCall, Prod.map_snd, id_eq] at hs
  exact ⟨s, ⟨hauth.symm, hfile⟩, published_of_server rfl hsize (Prod.ext hok hs)⟩

/-- The owner yanks it. -/
theorem yanked_foo {s : Server.Stores} (h : HasFoo s) {path : String}
    (hpath : X.nameAndVersion path = .ok ("Foo", Version.new 0 0 0)) :
    (serveFoo cfg X (Routes.parts s) { fooCall with route := .yank path }).1 = .ok .yanked := by
  obtain ⟨auth, hauth⟩ : ∃ auth,
      FsAuth.authYank testHash {} s.auth (tokenToStr tokenZero) "Foo" = (.ok (), auth) := by
    rw [h.auth]
    unfold FsAuth.authYank
    rw [FsAuth.tokenFromStr_tokenToStr]
    exact ⟨_, rfl⟩
  obtain ⟨files, hfiles⟩ : ∃ files, FsIndex.yankInner Libs.canonical {} s.files "Foo"
      (Version.new 0 0 0) true = (.ok (), files) := by
    have hread := FsIndex.deserialized_ok.mpr h.file
    have hm : FsIndex.accessCrate "Foo" = .ok ⟨"foo", FsIndex.keyPath "foo"⟩ := by decide
    have hyank : FsIndex.yankContents Libs.canonical (Version.new 0 0 0) true
        (FsIndex.pullFile false s.files (FsIndex.keyPath "foo")) = .ok
          ([{ FsIndex.release capitalFoo (abcHash [97, 98, 99]) with yanked := true }],
            some capitalFoo) := by
      unfold FsIndex.yankContents
      rw [hread]
      rfl
    unfold FsIndex.yankInner
    simp only [hm, hyank]
    exact ⟨_, rfl⟩
  have htoken : Server.requireToken (fooCall.headers.lookup "authorization") =
      .ok (tokenToStr tokenZero) := Server.requireToken_authorizationOf tokenZero
  have hyank : Server.yank Libs.canonical testHash true {} s
      (fooCall.headers.lookup "authorization") "Foo" (Version.new 0 0 0) =
        (.ok (), { s with auth, files }) := by
    unfold Server.yank
    simp only [htoken, hauth, hfiles]
  exact congrArg Prod.fst (yanked_of_server rfl hpath hyank)

/-- The extractors of a path of `Foo`. -/
def capitalExtractors : Extractors :=
  { fooExtractors with nameAndVersion := fun _ => .ok ("Foo", Version.new 0 0 0) }

noncomputable def yankCall : Call := { fooCall with route := .yank "Foo/0.0.0" }

theorem lastFlag_yanked {r : Except (Failure AuthError) Answer} (hr : r = .ok .yanked)
    (hpath : X.nameAndVersion "Foo/0.0.0" = .ok ("Foo", Version.new 0 0 0)) :
    lastFlag X (toAsciiLowercase "Foo") (Version.new 0 0 0) false [yankCall] [r] = true := by
  subst hr
  simp only [lastFlag, nextFlag, yankCall, flagged, hpath, and_self, if_true]

end Foo

/-- `Foo` is published, and then yanked by its owner. -/
theorem release_stays_foo :
    let serve := serveFoo Routes.openConfig capitalExtractors
    let s := Run.final serve (newStores (Server.registered ∅).auth) ([] ++ [fooCall])
    let w := (Run.final serve s [yankCall]).2
    let B : Backend _ _ AuthError := stores Libs.canonical abcHash {} false false
      (fun _ _ => Tx.fail .serviceError) (fun _ => Tx.fail .serviceError)
    (B.download "Foo" (Version.new 0 0 0) w).1 = .ok [97, 98, 99] ∧
      ∃ entries, (B.sparseEntry "Foo" w).1 = .ok entries ∧
        entries.find? (·.vers = Version.new 0 0 0) = some
          { FsIndex.release Server.capitalFoo (abcHash [97, 98, 99]) with yanked := true } := by
  intro serve s w B
  obtain ⟨t, hfoo, hpublished⟩ := published_foo Routes.openConfig capitalExtractors length_request
  have hstate : s = Routes.parts t := congrArg Prod.snd hpublished
  obtain ⟨hdownload, entries, hentries, hfound, -⟩ := release_stays Libs.canonical abcHash
    Routes.openConfig capitalExtractors (fun io => Routes.fsAuth FsAuth.testHash io.auth)
    (fun _ _ => Tx.fail .serviceError) (fun _ => Tx.fail .serviceError)
    (Server.registered ∅).auth [] [yankCall] fooCall (by simp [fooCall, yankCall]) rfl
    decodeBody_foo (congrArg Prod.fst hpublished)
  have hyanked : (serve s yankCall).1 = .ok .yanked := by
    rw [hstate]
    exact yanked_foo hfoo rfl
  refine ⟨hdownload, entries, hentries, hfound.trans ?_⟩
  exact congrArg (fun flag => some { FsIndex.release Server.capitalFoo (abcHash [97, 98, 99]) with
    yanked := flag }) (lastFlag_yanked (X := capitalExtractors) hyanked rfl)

end Registry

end Freighter
