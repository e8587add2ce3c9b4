import Freighter.Lib.Path
import Freighter.Server.Registry

/-!
# From a path to a handler

* `withScheme`, `ServiceConfig.sanitize`: the endpoints of a server that has started;
* `segments`: the parts of a path between its slashes; `segments_intercalate`;
* `router`: the routers, as far as they lead to the routes on a crate.

A path is here as it came, before percent decoding.
-/

namespace Freighter

namespace Routes

open UnixPath (pieces)

/-! ## The endpoints -/

def withScheme (endpoint : String) : String :=
  if "://".toList <:+: endpoint.toList then endpoint else "https://" ++ endpoint

/-- `ServiceConfig::sanitize`. -/
def ServiceConfig.sanitize (cfg : ServiceConfig) : ServiceConfig :=
  { cfg with
    apiEndpoint := withScheme cfg.apiEndpoint
    downloadEndpoint := withScheme cfg.downloadEndpoint }

/-- The methods of the routes on a crate. -/
inductive Method where
  | get
  | put
  | delete
deriving DecidableEq

def segments (path : String) : List String := (pieces path).map String.ofList

/-- The handler of a request on a crate: a parameter is one segment and the wildcard of the index
router the rest of the path, and neither is empty. Other routes, the fallbacks and a method that a
path does not have are `none`. -/
def router (method : Method) (path : String) (body : Bytes) : Option CrateRoute :=
  match method, segments path with
  | .get, ["", "index", "config.json"] => some .config
  | .get, "" :: "index" :: rest =>
    let crateIndexPath := "/".intercalate rest
    if crateIndexPath = "" then none else some (.getSparseMeta crateIndexPath)
  | .get, ["", "downloads", name, version] =>
    if name = "" ∨ version = "" then none else some (.serveCrate (name ++ "/" ++ version))
  | .put, ["", "api", "v1", "crates", "new"] => some (.publish body)
  | .delete, ["", "api", "v1", "crates", name, version, "yank"] =>
    if name = "" ∨ version = "" then none else some (.yank (name ++ "/" ++ version))
  | .put, ["", "api", "v1", "crates", name, version, "unyank"] =>
    if name = "" ∨ version = "" then none else some (.unyank (name ++ "/" ++ version))
  | _, _ => none

theorem segments_of_notMem {n : String} (h : '/' ∉ n.toList) : segments n = [n] := by
  rw [segments, pieces, List.splitOn_eq_singleton h, List.map_singleton, String.ofList_toList]

theorem segments_slash {n : String} (h : '/' ∉ n.toList) (rest : String) :
    segments (n ++ "/" ++ rest) = n :: segments rest := by
  have htext : (n ++ "/" ++ rest).toList = n.toList ++ '/' :: rest.toList := by simp
  rw [segments, pieces, htext, List.splitOn_append_cons_self, List.splitOn_eq_singleton h,
    List.map_append, List.map_singleton, String.ofList_toList]
  rfl

/-- **A path has the segments that it was put together from.** -/
theorem segments_intercalate {names : List String} (hne : names ≠ [])
    (h : ∀ n ∈ names, '/' ∉ n.toList) : segments ("/".intercalate names) = names := by
  induction names with
  | nil => exact absurd rfl hne
  | cons n names ih =>
    have hn := h n List.mem_cons_self
    cases names with
    | nil => rw [String.intercalate_singleton, segments_of_notMem hn]
    | cons m names =>
      rw [String.intercalate_cons_cons, segments_slash hn,
        ih (List.cons_ne_nil m names) fun k hk => h k (List.mem_cons_of_mem n hk)]

section Paths

variable {name version : String} (body : Bytes)

/-- A path with a segment too many. -/
theorem router_download_more {more : String} (hslash : '/' ∉ name.toList)
    (hslash' : '/' ∉ version.toList) (hslash'' : '/' ∉ more.toList) :
    router .get ("/".intercalate ["", "downloads", name, version, more]) body = none := by
  have hsegs : segments ("/".intercalate ["", "downloads", name, version, more]) =
      ["", "downloads", name, version, more] := by
    refine segments_intercalate (List.cons_ne_nil _ _) ?_
    simp only [List.forall_mem_cons]
    exact ⟨by decide, by decide, hslash, hslash', hslash'', fun _ h => absurd h List.not_mem_nil⟩
  unfold router
  rw [hsegs]
  rfl

end Paths

end Routes

end Freighter
