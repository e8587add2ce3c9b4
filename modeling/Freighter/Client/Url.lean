import Freighter.Lib.Replace
import Freighter.Server.Layout

/-!
# The URLs of the client

* `sanitizeDl`, `applyMarkers`: the template of the download URL, and the URL of a crate;
  `apiUrl`, `indexUrl`: those of the API and of the index;
* `marked`: a template with its markers; `sanitizeDl_plain`, `sanitizeDl_marked`: what becomes of
  the configured URL;
* **`applyMarkers_marked`**: the five replacements, one after the other, substitute for the markers.
-/

namespace Freighter

namespace Client

open Text (Piece render marker replace)

/-! ## The functions -/

def API_PATH : String := "api/v1/crates"

/-- `s.ends_with('/')` and then `s.pop()`. -/
def popSlash (s : String) : String :=
  if s.toList.getLast? = some '/' then String.ofList s.toList.dropLast else s

/-- `str::contains`. -/
def contains (s pattern : String) : Bool := pattern.toList <:+: s.toList

def MARKERS : List String :=
  ["\x7bcrate\x7d", "\x7bversion\x7d", "\x7bprefix\x7d", "\x7blowerprefix\x7d",
    "\x7bsha256-checksum\x7d"]

def sanitizeDl (dl : String) : String :=
  let dl := popSlash dl
  if MARKERS.any (contains dl) then dl else dl ++ "/\x7bcrate\x7d/\x7bversion\x7d/download"

/-- `str::replace`. -/
def replaceStr (pattern new s : String) : String :=
  String.ofList (replace pattern.toList new.toList s.toList)

/-- `apply_markers`; `none` is a panic of `crate_prefix`. -/
def applyMarkers (url name version shasum : String) : Option String := do
  let dir ← cratePrefix name
  let url := replaceStr "\x7bcrate\x7d" name url
  let url := replaceStr "\x7bversion\x7d" version url
  let url := replaceStr "\x7bprefix\x7d" dir url
  let url := replaceStr "\x7blowerprefix\x7d" (toAsciiLowercase dir) url
  some (replaceStr "\x7bsha256-checksum\x7d" shasum url)

/-- The URL of a path of the API. -/
def apiUrl (api path : String) : String :=
  (if contains api "://" then "" else "http://") ++ api ++ "/" ++ API_PATH ++ path

/-- The markers of a download URL. -/
inductive Marker where
  | crate
  | version
  | directory
  | lowerDirectory
  | checksum
deriving DecidableEq

def Marker.name : Marker → List Char
  | .crate => "crate".toList
  | .version => "version".toList
  | .directory => "prefix".toList
  | .lowerDirectory => "lowerprefix".toList
  | .checksum => "sha256-checksum".toList

/-- In the order in which they are replaced. -/
def Marker.all : List Marker := [.crate, .version, .directory, .lowerDirectory, .checksum]

/-- A template, as a text. -/
def marked (template : List (Piece Char Marker)) : List Char :=
  render (marker '{' '}' Marker.name) template

/-- What stands for the markers in the URL of a crate. -/
def markerValue (name version shasum dir : String) : Marker → List Char
  | .crate => name.toList
  | .version => version.toList
  | .directory => dir.toList
  | .lowerDirectory => (toAsciiLowercase dir).toList
  | .checksum => shasum.toList

theorem Marker.name_injective : Function.Injective Marker.name := by
  intro k k' h
  cases k <;> cases k' <;> first | rfl | exact absurd h (by decide)

theorem Marker.mem_all (k : Marker) : k ∈ Marker.all := by cases k <;> decide

theorem brace_notMem_name (k : Marker) : '{' ∉ k.name ∧ '}' ∉ k.name := by cases k <;> decide

/-! ## What stands in a URL -/

theorem mem_intercalate {names : List String} {c : Char} (h : c ∈ ("/".intercalate names).toList) :
    c = '/' ∨ ∃ n ∈ names, c ∈ n.toList := by
  induction names with
  | nil =>
    rw [String.intercalate_nil] at h
    cases h
  | cons n names ih =>
    cases names with
    | nil =>
      rw [String.intercalate_singleton] at h
      exact Or.inr ⟨n, List.mem_cons_self, h⟩
    | cons m names =>
      rw [String.intercalate_cons_cons, String.toList_append, String.toList_append,
        List.mem_append, List.mem_append] at h
      rcases h with (h | h) | h
      · exact Or.inr ⟨n, List.mem_cons_self, h⟩
      · exact Or.inl (List.mem_singleton.mp h)
      · exact (ih h).imp_right fun ⟨k, hk, hc⟩ => ⟨k, List.mem_cons_of_mem n hk, hc⟩

theorem ofList_ne_empty {cs : List Char} (h : cs ≠ []) : String.ofList cs ≠ "" := by
  intro e
  have htext := congrArg String.toList e
  rw [String.toList_ofList] at htext
  exact h htext

/-- **A name in ASCII has a directory**, whose parts are of letters of the name or of its length. -/
theorem cratePrefix_of_ascii {name : String} (hne : name ≠ "")
    (hsize : ∀ c ∈ name.toList, c.utf8Size = 1) :
    ∃ dirs : List String, dirs ≠ [] ∧ cratePrefix name = some ("/".intercalate dirs) ∧
      ∀ d ∈ dirs, d ≠ "" ∧ ∀ c ∈ d.toList, c ∈ name.toList ∨ c ∈ ['1', '2', '3'] := by
  have hne : name.toList ≠ [] := fun h => hne (String.toList_inj.mp h)
  unfold cratePrefix
  rw [Text.length_utf8 hsize]
  generalize name.toList = cs at hne hsize
  rcases cs with _ | ⟨a, _ | ⟨b, _ | ⟨c, _ | ⟨d, cs⟩⟩⟩⟩
  · exact absurd rfl hne
  · exact ⟨["1"], by simp, rfl, by simp⟩
  · exact ⟨["2"], by simp, rfl, by simp⟩
  · have hone : Text.splitAt 1 [a, b, c] = some ([a], [b, c]) :=
      Text.splitAt_of_ascii hsize (by simp)
    refine ⟨["3", String.ofList [a]], by simp, ?_, ?_⟩
    · simp only [List.length_cons, List.length_nil, hone]
      exact congrArg some (String.toList_inj.mp (by simp [String.intercalate_cons_cons]))
    · simp only [List.forall_mem_cons, String.toList_ofList]
      exact ⟨⟨by decide, by simp⟩, ⟨ofList_ne_empty (by simp), by simp⟩, by simp⟩
  · have htwo : Text.splitAt 2 (a :: b :: c :: d :: cs) = some ([a, b], c :: d :: cs) :=
      Text.splitAt_of_ascii hsize (by simp)
    have hrest : Text.splitAt 2 (c :: d :: cs) = some ([c, d], cs) :=
      Text.splitAt_of_ascii (fun e he => hsize e (List.mem_of_mem_drop (i := 2) he)) (by simp)
    refine ⟨[String.ofList [a, b], String.ofList [c, d]], by simp, ?_, ?_⟩
    · simp only [List.length_cons, htwo, Option.bind_some, hrest]
      exact congrArg some (String.toList_inj.mp (by simp [String.intercalate_cons_cons]))
    · simp only [List.forall_mem_cons, String.toList_ofList]
      exact ⟨⟨ofList_ne_empty (by simp), by simp +contextual⟩,
        ⟨ofList_ne_empty (by simp), by simp +contextual⟩, by simp⟩

theorem brace_notMem_dir {name : String} {dirs : List String} (hname : '{' ∉ name.toList)
    (hdirs : ∀ d ∈ dirs, d ≠ "" ∧ ∀ c ∈ d.toList, c ∈ name.toList ∨ c ∈ ['1', '2', '3']) :
    '{' ∉ ("/".intercalate dirs).toList := by
  intro h
  rcases mem_intercalate h with h | ⟨d, hd, h⟩
  · exact absurd h (by decide)
  · rcases (hdirs d hd).2 '{' h with h | h
    · exact hname h
    · exact absurd h (by decide)

theorem brace_of_toLower {c : Char} (h : c.toLower = '{') : c = '{' := by
  unfold Char.toLower at h
  split at h
  · rename_i hc
    have hz : c.val.toNat ≤ 90 := UInt32.le_iff_toNat_le.mp hc.2
    have hsum : (c.val + ('a'.val - 'A'.val)).toNat = 123 :=
      congrArg (fun d : Char => d.val.toNat) h
    have hdiff : ('a'.val - 'A'.val).toNat = 32 := by decide
    rw [UInt32.toNat_add, hdiff] at hsum
    omega
  · exact h

theorem brace_notMem_toAsciiLowercase {s : String} (h : '{' ∉ s.toList) :
    '{' ∉ (toAsciiLowercase s).toList := by
  rw [toAsciiLowercase, String.toList_ofList]
  intro hmem
  obtain ⟨c, hc, hlower⟩ := List.mem_map.mp hmem
  exact h (brace_of_toLower hlower ▸ hc)

theorem mem_optPart {mark c : Char} {text : String} (h : c ∈ optPart mark text) :
    c = mark ∨ c ∈ text.toList := by
  unfold optPart at h
  split_ifs at h
  · cases h
  · exact List.mem_cons.mp h

theorem mem_identifiers {cs : List Char} (h : isIdentifiers cs = true) {c : Char} (hc : c ∈ cs) :
    isIdentChar c = true ∨ c = '.' := by
  rw [isIdentifiers, Bool.and_eq_true, List.all_eq_true] at h
  have hc := h.1 c hc
  rwa [Bool.or_eq_true, beq_iff_eq] at hc

/-- **What a version is written with.** -/
theorem mem_display {v : Version} {c : Char} (h : c ∈ v.display.toList) :
    isIdentChar c = true ∨ c = '.' ∨ c = '+' := by
  have hdigit : ∀ n : ℕ, c ∈ n.repr.toList → isIdentChar c = true := by
    intro n hc
    have := Text.isDigit_of_mem_repr hc
    simp [isIdentChar, Char.isAlphanum, this]
  rw [Version.display, String.toList_ofList] at h
  simp only [Version.chars, List.mem_append, List.mem_cons] at h
  rcases h with h | rfl | h | rfl | h | h | h
  · exact Or.inl (hdigit _ h)
  · exact Or.inr (Or.inl rfl)
  · exact Or.inl (hdigit _ h)
  · exact Or.inr (Or.inl rfl)
  · exact Or.inl (hdigit _ h)
  · rcases mem_optPart h with rfl | hc
    · exact Or.inl (by decide)
    · rcases v.pre.valid with hp | hp
      · rw [hp] at hc
        cases hc
      · rw [Bool.and_eq_true] at hp
        exact (mem_identifiers hp.1 hc).imp_right Or.inl
  · rcases mem_optPart h with rfl | hc
    · exact Or.inr (Or.inr rfl)
    · rcases v.build.valid with hp | hp
      · rw [hp] at hc
        cases hc
      · exact (mem_identifiers hp hc).imp_right Or.inl

theorem brace_notMem_display (v : Version) : '{' ∉ v.display.toList := by
  intro h
  rcases mem_display h with h | h | h
  · exact absurd h (by decide)
  · exact absurd h (by decide)
  · exact absurd h (by decide)

/-! ## The configured URL -/

theorem markers_eq : MARKERS = Marker.all.map fun k =>
    String.ofList (marker '{' '}' Marker.name k) := by decide

theorem contains_marker {dl : String} :
    MARKERS.any (contains dl) = true ↔
      ∃ k, marker '{' '}' Marker.name k <:+: dl.toList := by
  rw [markers_eq, List.any_map, List.any_eq_true]
  constructor
  · rintro ⟨k, -, hk⟩
    have hinfix := of_decide_eq_true hk
    rw [String.toList_ofList] at hinfix
    exact ⟨k, hinfix⟩
  · rintro ⟨k, hk⟩
    refine ⟨k, Marker.mem_all k, decide_eq_true ?_⟩
    rwa [String.toList_ofList]

/-- The template that is used when none is configured. -/
def defaultTemplate (dl : List Char) : List (Piece Char Marker) :=
  [.text dl, .text ['/'], .marker .crate, .text ['/'], .marker .version,
    .text "/download".toList]

/-- **A URL without markers** is one to which the default is added. -/
theorem sanitizeDl_plain {dl : String} (h : '{' ∉ dl.toList) :
    Text.Free '{' (defaultTemplate (popSlash dl).toList) ∧
      sanitizeDl dl = String.ofList (marked (defaultTemplate (popSlash dl).toList)) := by
  have hpop : '{' ∉ (popSlash dl).toList := by
    unfold popSlash
    split_ifs
    · rw [String.toList_ofList]
      exact fun hmem => h (List.mem_of_mem_dropLast hmem)
    · exact h
  have hnone : ¬ MARKERS.any (contains (popSlash dl)) = true := by
    rw [contains_marker]
    rintro ⟨k, hk⟩
    exact hpop (hk.subset (by rw [marker]; exact List.mem_cons_self))
  constructor
  · intro w hw
    simp only [defaultTemplate, List.mem_cons, Piece.text.injEq, reduceCtorEq, false_or,
      List.not_mem_nil, or_false] at hw
    rcases hw with rfl | rfl | rfl | rfl
    · exact hpop
    · decide
    · decide
    · decide
  · unfold sanitizeDl
    have hdefault : "/\x7bcrate\x7d/\x7bversion\x7d/download".toList = '/' ::
        (marker '{' '}' Marker.name .crate ++ '/' ::
          (marker '{' '}' Marker.name .version ++ "/download".toList)) := by decide
    rw [if_neg hnone]
    apply String.toList_inj.mp
    rw [String.toList_append, hdefault]
    simp only [marked, render, defaultTemplate, List.flatMap_cons, List.flatMap_nil,
      List.append_nil, List.cons_append, List.nil_append, String.toList_ofList]

/-- **The replacements substitute for the markers**, all at once. -/
theorem applyMarkers_marked {template : List (Piece Char Marker)} (hfree : Text.Free '{' template)
    {name version shasum dir : String} (hdir : cratePrefix name = some dir)
    (hvalues : ∀ k, '{' ∉ markerValue name version shasum dir k) :
    applyMarkers (String.ofList (marked template)) name version shasum =
      some (String.ofList (render (markerValue name version shasum dir) template)) := by
  have hall := Text.replaceAll_render Marker.name_injective (fun k => (brace_notMem_name k).2)
    (fun k => (brace_notMem_name k).1) (by decide : '{' ≠ '}') hfree hvalues
    (by decide : Marker.all.Nodup) Marker.mem_all
  have hrun : applyMarkers (String.ofList (marked template)) name version shasum =
      some (String.ofList (Text.replaceAll '{' '}' Marker.name
        (markerValue name version shasum dir) Marker.all (marked template))) := by
    unfold applyMarkers
    simp only [hdir, replaceStr, String.toList_ofList]
    rfl
  rw [hrun]
  exact congrArg (fun cs => some (String.ofList cs)) hall

end Client

end Freighter
