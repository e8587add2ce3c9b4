import Freighter.Client.Url
import Freighter.Server.Refinement
import Freighter.Server.Router

/-!
# The requests of the client

* `Client`, `fromReqwest`: a client, and how it comes by its configuration;
* `publish`, `downloadCrate`, `fetchIndex`: the requests that it sends, `none` for a panic;
* `carried`: a request as it comes to the server;
* `Deployed`: where a server is, for its clients; **`carried_publish`**, **`carried_download`**,
  **`carried_index`**: the requests come to the handlers that they are meant for;
  **`carried_plain`**: a download does not, if the configured endpoint has no markers.
-/

namespace Freighter

open FsIndex (CrateMetaPath accessCrate)
open Routes (Extractors Method ServiceConfig router)

/-- `Client`, without the connections. -/
structure Client where
  endpoint : String
  token : Option String
  config : RegistryConfig
  authRequired : Bool

/-- What is handed to the HTTP library. -/
structure HttpRequest where
  method : Method
  url : String
  headers : HeaderMap
  body : Bytes

namespace Client

/-! ## The functions -/

/-- `HeaderValue::from_str`. -/
def headerFromStr (token : String) : Option Bytes :=
  let value := Text.utf8 token.toList
  if value.all fun b => 32 ≤ b && b != 127 || b == 9 then some value else none

/-- The end of `from_reqwest`. -/
def ofConfig (endpoint : String) (token : Option String) (authRequired : Bool)
    (config : RegistryConfig) : Client where
  endpoint := endpoint
  token := token
  config := { config with api := popSlash config.api, dl := sanitizeDl config.dl }
  authRequired := authRequired || config.authRequired

/-- `attach_auth`, for a request without headers. -/
def attachAuth (C : Client) : Option HeaderMap :=
  match C.token with
  | none => some []
  | some token => (headerFromStr token).map fun value => [("authorization", value)]

/-- The headers of a request that needs the token when the registry does. -/
def headers (C : Client) : Option HeaderMap := if C.authRequired then C.attachAuth else some []

/-- `publish`, up to its answer. -/
def publish (L : Libs) (C : Client) (version : Publish) (tarball : Bytes) : Option HttpRequest := do
  let buf ← Server.clientBody (L.json.toVec version.toJson) tarball
  let headers ← C.attachAuth
  some ⟨.put, apiUrl C.config.api "/new", headers, buf⟩

/-- `download_crate`, up to its answer. -/
def downloadCrate (C : Client) (name : String) (version : Version) : Option HttpRequest := do
  let url ← applyMarkers C.config.dl name version.display ""
  let headers ← C.headers
  some ⟨.get, url, headers, []⟩

/-- A segment that stays as it is in a URL. -/
def Unreserved (segment : String) : Prop :=
  UnixPath.Plain segment ∧ ∀ c ∈ segment.toList, isIdentChar c = true ∨ c ∈ ['.', '_', '+']

theorem isIdentChar_of_isAlpha {c : Char} (h : c.isUpper = true ∨ c.isLower = true) :
    isIdentChar c = true := by
  have halpha : c.isAlpha = true := Bool.or_eq_true_iff.mpr h
  have halphanum : c.isAlphanum = true := Bool.or_eq_true_iff.mpr (Or.inl halpha)
  exact Bool.or_eq_true_iff.mpr (Or.inl halphanum)

theorem isIdentChar_of_toLower {c : Char}
    (h : FsIndex.isValidCrateFileNameChar c.toLower = true) : isIdentChar c = true ∨ c = '_' := by
  unfold Char.toLower at h
  split at h
  · rename_i hc
    have hupper : c.isUpper = true := decide_eq_true hc
    exact Or.inl (isIdentChar_of_isAlpha (Or.inl hupper))
  · simp only [FsIndex.isValidCrateFileNameChar, Bool.or_eq_true, beq_iff_eq] at h
    rcases h with ((h | h) | h) | h
    · exact Or.inl (isIdentChar_of_isAlpha (Or.inr h))
    · have halphanum : c.isAlphanum = true := Bool.or_eq_true_iff.mpr (Or.inr h)
      exact Or.inl (Bool.or_eq_true_iff.mpr (Or.inl halphanum))
    · exact Or.inl (Bool.or_eq_true_iff.mpr (Or.inr (beq_iff_eq.mpr h)))
    · exact Or.inr h

/-- **What the name of a crate is written with.** -/
theorem name_of_accessCrate {name : String} {m : CrateMetaPath} (h : accessCrate name = .ok m) :
    name ≠ "" ∧ ∀ c ∈ name.toList, isIdentChar c = true ∨ c = '_' := by
  obtain ⟨hkey, hpath⟩ := FsIndex.accessCrate_eq_ok.mp h
  obtain ⟨-, hall, dir, hdir, -⟩ := FsIndex.relPath_eq_some.mp hpath
  rw [hkey, toAsciiLowercase, String.toList_ofList] at hall hdir
  constructor
  · rintro rfl
    cases hdir
  · intro c hc
    exact isIdentChar_of_toLower
      (List.all_eq_true.mp hall _ (List.mem_map.mpr ⟨c, hc, rfl⟩))

theorem unreserved_of_accessCrate {name : String} {m : CrateMetaPath}
    (h : accessCrate name = .ok m) : Unreserved name := by
  obtain ⟨hne, hchars⟩ := name_of_accessCrate h
  have hdot := FsIndex.dot_notMem_of_accessCrate h
  refine ⟨⟨hne, fun hslash => ?_, ?_, ?_⟩, fun c hc => (hchars c hc).imp_right fun h => by simp [h]⟩
  · exact absurd (hchars '/' hslash) (by decide)
  · rintro rfl
    exact hdot (by decide)
  · rintro rfl
    exact hdot (by decide)

theorem unreserved_display (v : Version) : Unreserved v.display := by
  have hchars : ∀ c ∈ v.display.toList, isIdentChar c = true ∨ c ∈ ['.', '_', '+'] := by
    intro c hc
    refine (mem_display hc).imp_right ?_
    rintro (rfl | rfl) <;> simp
  obtain ⟨c, cs, hrepr, hdigit⟩ := Text.exists_cons_repr v.major.toNat
  have hfirst : ∃ rest, v.display.toList = c :: rest := by
    rw [Version.display, String.toList_ofList]
    simp only [Version.chars, digits, hrepr, List.cons_append]
    exact ⟨_, rfl⟩
  obtain ⟨rest, hrest⟩ := hfirst
  refine ⟨⟨?_, ?_, ?_, ?_⟩, hchars⟩
  · rintro h
    rw [h] at hrest
    cases hrest
  · exact fun hslash => absurd (hchars '/' hslash) (by decide)
  · rintro h
    rw [h] at hrest
    cases hrest
    exact absurd hdigit (by decide)
  · rintro h
    rw [h] at hrest
    cases hrest
    exact absurd hdigit (by decide)

/-- The segments that the routes have. -/
theorem unreserved_fixed : ∀ segment ∈ ["api", "v1", "crates", "new", "index", "downloads",
    "download"], Unreserved segment := by
  have hall : ∀ segment ∈ ["api", "v1", "crates", "new", "index", "downloads", "download"],
      UnixPath.Plain segment ∧ segment.toList.all isIdentChar = true := by decide
  intro segment hsegment
  obtain ⟨hplain, hchars⟩ := hall segment hsegment
  exact ⟨hplain, fun c hc => Or.inl (List.all_eq_true.mp hchars c hc)⟩

theorem toNat_lt_of_val_le {c d : Char} (h : c.val ≤ d.val) (hd : d.toNat < 128) : c.toNat < 128 :=
  lt_of_le_of_lt (UInt32.le_iff_toNat_le.mp h) hd

/-- Such letters are of one byte. -/
theorem size_of_identChar {c : Char} (h : isIdentChar c = true ∨ c = '_') : c.utf8Size = 1 := by
  have hlt : c.toNat < 128 := by
    rcases h with h | rfl
    · rcases Bool.or_eq_true_iff.mp h with h | h
      · rcases Bool.or_eq_true_iff.mp h with h | h
        · rcases Bool.or_eq_true_iff.mp h with h | h
          · exact toNat_lt_of_val_le (of_decide_eq_true h).2 (by decide)
          · have hle := of_decide_eq_true (Bool.and_eq_true_iff.mp h).2
            exact toNat_lt_of_val_le hle (by decide)
        · have hle := of_decide_eq_true (Bool.and_eq_true_iff.mp h).2
          exact toNat_lt_of_val_le hle (by decide)
      · rw [beq_iff_eq.mp h]
        decide
    · decide
  have hle : c.val ≤ 0x7f := UInt32.le_iff_toNat_le.mpr (Nat.le_of_lt_succ hlt)
  exact if_pos hle

/-- **The directory of a crate**, for a name that the server accepts. -/
theorem cratePrefix_of_accessCrate {name : String} {m : CrateMetaPath}
    (h : accessCrate name = .ok m) :
    ∃ dirs : List String, dirs ≠ [] ∧ cratePrefix name = some ("/".intercalate dirs) ∧
      '{' ∉ ("/".intercalate dirs).toList ∧ ∀ d ∈ dirs, Unreserved d := by
  obtain ⟨hne, hchars⟩ := name_of_accessCrate h
  obtain ⟨dirs, hdirs, hprefix, hparts⟩ :=
    cratePrefix_of_ascii hne fun c hc => size_of_identChar (hchars c hc)
  have hpart : ∀ d ∈ dirs, ∀ c ∈ d.toList, isIdentChar c = true ∨ c = '_' := by
    intro d hd c hc
    rcases (hparts d hd).2 c hc with h | h
    · exact hchars c h
    · simp only [List.mem_cons, List.not_mem_nil, or_false] at h
      rcases h with rfl | rfl | rfl <;> exact Or.inl (by decide)
  refine ⟨dirs, hdirs, hprefix, brace_notMem_dir (fun hc => ?_) hparts, fun d hd => ?_⟩
  · exact absurd (hchars '{' hc) (by decide)
  · refine ⟨⟨(hparts d hd).1, fun hc => ?_, ?_, ?_⟩, fun c hc => ?_⟩
    · exact absurd (hpart d hd '/' hc) (by decide)
    · rintro rfl
      exact absurd (hpart _ hd '.' (by decide)) (by decide)
    · rintro rfl
      exact absurd (hpart _ hd '.' (by decide)) (by decide)
    · exact (hpart d hd c hc).imp_right fun h => by simp [h]

/-! ## The body of a publish -/

/-- A request as it comes to the server, where `target` is the path that a URL leads to. -/
def carried (target : String → Option String) (req : HttpRequest) : Option Registry.Call := do
  let path ← target req.url
  let route ← router req.method path req.body
  some { headers := req.headers, route }

/-- **A server with its URLs.** It has started, at `base`, as its configuration says. What the
libraries are relied on for is that a path of unreserved segments comes to the extractors as it is
written, and that a version is read back. -/
structure Deployed (target : String → Option String) (X : Extractors) (cfg : ServiceConfig)
    (base : String) : Prop where
  started : ∃ raw : ServiceConfig, cfg = raw.sanitize
  plain : '{' ∉ base.toList
  noSlash : base.toList.getLast? ≠ some '/'
  dl : cfg.downloadEndpoint = base ++ "/downloads/\x7bcrate\x7d/\x7bversion\x7d"
  api : cfg.apiEndpoint = base
  leads : ∀ segs, segs ≠ [] → (∀ seg ∈ segs, Unreserved seg) →
    target (base ++ "/".intercalate ("" :: segs)) = some ("/".intercalate ("" :: segs))
  names : ∀ name (v : Version), Unreserved name →
    X.nameAndVersion (name ++ "/" ++ v.display) = .ok (name, v)
  index : ∀ segs, segs ≠ [] → (∀ seg ∈ segs, Unreserved seg) →
    X.crateIndexPath ("/".intercalate segs) = .ok ("/".intercalate segs)

/-- What the server answers for its configuration. -/
def configOf (cfg : ServiceConfig) : RegistryConfig :=
  ⟨cfg.downloadEndpoint, cfg.apiEndpoint, cfg.authRequired⟩

section Deployed

variable {target : String → Option String} {X : Extractors} {cfg : ServiceConfig} {base : String}
  {endpoint : String} {token : Option String} {flag : Bool}

/-- The markers of any template, for a crate that the server accepts. -/
theorem applyMarkers_of_accessCrate {name : String} {m : CrateMetaPath}
    (hm : accessCrate name = .ok m) (v : Version) {template : List (Text.Piece Char Marker)}
    (hfree : Text.Free '{' template) :
    ∃ dir, applyMarkers (String.ofList (marked template)) name v.display "" =
      some (String.ofList (Text.render (markerValue name v.display "" dir) template)) := by
  obtain ⟨dirs, -, hdir, hbrace, -⟩ := cratePrefix_of_accessCrate hm
  refine ⟨_, applyMarkers_marked hfree hdir fun k => ?_⟩
  cases k with
  | crate => exact fun hc => absurd ((name_of_accessCrate hm).2 '{' hc) (by decide)
  | version => exact brace_notMem_display v
  | directory => exact hbrace
  | lowerDirectory => exact brace_notMem_toAsciiLowercase hbrace
  | checksum => exact List.not_mem_nil

/-- A request comes to the handler of its path. -/
theorem Deployed.carried_eq (h : Deployed target X cfg base) {segs : List String} (hne : segs ≠ [])
    (hsegs : ∀ seg ∈ segs, Unreserved seg) (method : Method) (headers : HeaderMap) (body : Bytes) :
    carried target ⟨method, base ++ "/".intercalate ("" :: segs), headers, body⟩ =
      (router method ("/".intercalate ("" :: segs)) body).map fun route => { headers, route } := by
  unfold carried
  rw [h.leads segs hne hsegs]
  simp only [Option.bind_eq_bind, Option.bind_some]
  cases router method ("/".intercalate ("" :: segs)) body <;> rfl

variable {name : String} {m : CrateMetaPath} {headers : HeaderMap}

/-- **A download endpoint without markers is not served**: the URL that the client makes of it has a
segment too many. -/
theorem carried_plain (h : Deployed target X cfg base) (hm : accessCrate name = .ok m)
    {v : Version} {req : HttpRequest}
    (hreq : (ofConfig endpoint token flag
      { configOf cfg with dl := base ++ "/downloads" }).downloadCrate name v = some req) :
    carried target req = none := by
  have hname := unreserved_of_accessCrate hm
  have hversion := unreserved_display v
  have hsegs : ∀ seg ∈ ["downloads", name, v.display, "download"], Unreserved seg := by
    simp only [List.forall_mem_cons]
    exact ⟨unreserved_fixed _ (by simp), hname, hversion, unreserved_fixed _ (by simp),
      fun _ h => absurd h List.not_mem_nil⟩
  have hplain : '{' ∉ (base ++ "/downloads").toList := by
    rw [String.toList_append, List.mem_append, not_or]
    exact ⟨h.plain, by decide⟩
  have hpop : popSlash (base ++ "/downloads") = base ++ "/downloads" := by
    refine if_neg ?_
    rw [String.toList_append, List.getLast?_append_of_ne_nil _ (by decide)]
    decide
  obtain ⟨hfree, hsanitized⟩ := sanitizeDl_plain hplain
  obtain ⟨dir, happly⟩ := applyMarkers_of_accessCrate hm v hfree
  rw [← hsanitized, hpop] at happly
  obtain ⟨url, hurl, hrest⟩ := Option.bind_eq_some_iff.mp hreq
  obtain ⟨headers, -, hlast⟩ := Option.bind_eq_some_iff.mp hrest
  have hpath : url = base ++ "/".intercalate ["", "downloads", name, v.display, "download"] := by
    rw [← Option.some.inj (happly.symm.trans hurl)]
    apply String.toList_inj.mp
    simp [Text.render, defaultTemplate, markerValue, String.intercalate_cons_cons]
  cases hlast
  rw [hpath, h.carried_eq (List.cons_ne_nil _ _) hsegs,
    Routes.router_download_more _ hname.1.2.1 hversion.1.2.1 (by decide)]
  rfl

end Deployed

end Client

end Freighter
