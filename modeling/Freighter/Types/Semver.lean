import Freighter.Lib.Text

/-!
# Versions and version requirements

* `Version` with its `Display` text; **`Version.display_injective`**.
* `VersionReq`: nothing under `src` looks inside a requirement, so it is its canonical text.
* **`Semver`**: the parsers, which read back every text that was displayed; `Semver.canonical`.
-/

namespace Freighter

def isIdentChar (c : Char) : Bool := c.isAlphanum || c == '-'

/-- Dot-separated identifiers, none of them empty. -/
def isIdentifiers (cs : List Char) : Bool :=
  cs.all (fun c => isIdentChar c || c == '.') && (cs.splitOn '.').all fun i => !i.isEmpty

/-- A number with a leading zero. -/
def leadingZero (i : List Char) : Bool := i.all Char.isDigit && i.head? == some '0' && i != ['0']

/-- A pre-release: empty, or identifiers without leading zeros. -/
structure Prerelease where
  text : String
  valid : text.toList = [] ∨
    (isIdentifiers text.toList && (text.toList.splitOn '.').all fun i => !leadingZero i) = true
deriving DecidableEq

/-- Build metadata: empty, or identifiers. -/
structure BuildMetadata where
  text : String
  valid : text.toList = [] ∨ isIdentifiers text.toList = true
deriving DecidableEq

def Prerelease.EMPTY : Prerelease := ⟨"", Or.inl rfl⟩

def BuildMetadata.EMPTY : BuildMetadata := ⟨"", Or.inl rfl⟩

/-- `semver::Version`. -/
structure Version where
  major : UInt64
  minor : UInt64
  patch : UInt64
  pre : Prerelease
  build : BuildMetadata
deriving DecidableEq

/-- `Version::new`. -/
def Version.new (major minor patch : UInt64) : Version :=
  ⟨major, minor, patch, Prerelease.EMPTY, BuildMetadata.EMPTY⟩

/-- The digits of a number of a version. -/
def digits (n : UInt64) : List Char := n.toNat.repr.toList

/-- A part of a version that is left out when empty, after its mark. -/
def optPart (mark : Char) (text : String) : List Char :=
  if text.toList = [] then [] else mark :: text.toList

def Version.chars (v : Version) : List Char :=
  digits v.major ++ '.' :: (digits v.minor ++ '.' :: (digits v.patch ++
    (optPart '-' v.pre.text ++ optPart '+' v.build.text)))

/-- `Display for Version`. -/
def Version.display (v : Version) : String := String.ofList v.chars

example : (Version.new 1 20 3).display = "1.20.3" := by decide

theorem plus_notMem_identifiers {cs : List Char} (h : isIdentifiers cs = true) : '+' ∉ cs := by
  intro hm
  simp only [isIdentifiers, Bool.and_eq_true, List.all_eq_true] at h
  exact absurd (h.1 _ hm) (by decide)

theorem plus_notMem_pre (p : Prerelease) : '+' ∉ p.text.toList := by
  rcases p.valid with h | h
  · rw [h]; exact List.not_mem_nil
  · rw [Bool.and_eq_true] at h
    exact plus_notMem_identifiers h.1

theorem optPart_inj {m : Char} {s t : String} (h : optPart m s = optPart m t) : s = t := by
  unfold optPart at h
  refine String.toList_inj.mp ?_
  split_ifs at h with h1 h2 h2
  · rw [h1, h2]
  · exact (List.cons.inj h).2

theorem stops_optPart {p : Char → Bool} {m : Char} (hm : p m = false) (s : String)
    {r : List Char} (hr : Text.Stops p r) : Text.Stops p (optPart m s ++ r) := by
  unfold optPart
  split_ifs
  · exact hr
  · exact Text.stops_cons hm

theorem digits_append_inj {m n : UInt64} {r s : List Char} (hr : Text.Stops Char.isDigit r)
    (hs : Text.Stops Char.isDigit s) (h : digits m ++ r = digits n ++ s) : m = n ∧ r = s := by
  obtain ⟨hn, hrest⟩ := Text.repr_append_inj hr hs h
  exact ⟨UInt64.toNat_inj.mp hn, hrest⟩

theorem Version.chars_injective : Function.Injective Version.chars := by
  rintro ⟨a, b, c, p, q⟩ ⟨a', b', c', p', q'⟩ h
  simp only [Version.chars] at h
  have hdot : ∀ cs, Text.Stops Char.isDigit ('.' :: cs) := fun _ => Text.stops_cons rfl
  obtain ⟨rfl, h₁⟩ := digits_append_inj (hdot _) (hdot _) h
  obtain ⟨rfl, h₂⟩ := digits_append_inj (hdot _) (hdot _) (List.cons.inj h₁).2
  have hstop : ∀ (p : Prerelease) (q : BuildMetadata),
      Text.Stops Char.isDigit (optPart '-' p.text ++ optPart '+' q.text) := fun p q =>
    stops_optPart rfl _ (by
      simpa using stops_optPart (m := '+') rfl q.text (Text.stops_nil Char.isDigit))
  obtain ⟨rfl, h₃⟩ := digits_append_inj (hstop p q) (hstop p' q') (List.cons.inj h₂).2
  -- the pre-release part has no `+`, and the build part starts with one
  have hpre : ∀ (p : Prerelease), ∀ c ∈ optPart '-' p.text, (c != '+') = true := by
    intro p c hc
    have := plus_notMem_pre p
    unfold optPart at hc
    split_ifs at hc
    · exact absurd hc List.not_mem_nil
    · rcases List.mem_cons.mp hc with rfl | hc
      · rfl
      · exact bne_iff_ne.mpr fun e => this (e ▸ hc)
  have hbuild : ∀ q : BuildMetadata, Text.Stops (fun c => c != '+') (optPart '+' q.text) :=
    fun q => by
      simpa using stops_optPart (p := fun c => c != '+') (m := '+') rfl q.text (Text.stops_nil _)
  obtain ⟨hp, hq⟩ := Text.append_inj_of_stop (hpre p) (hpre p') (hbuild q) (hbuild q') h₃
  obtain rfl : p = p' := by cases p; cases p'; cases optPart_inj hp; rfl
  obtain rfl : q = q' := by cases q; cases q'; cases optPart_inj hq; rfl
  rfl

/-- **The text determines the version.** -/
theorem Version.display_injective : Function.Injective Version.display := fun v w h => by
  have h' := congrArg String.toList h
  simp only [Version.display, String.toList_ofList] at h'
  exact Version.chars_injective h'

/-! ## Requirements -/

inductive Op where
  | exact | greater | greaterEq | less | lessEq | tilde | caret
deriving DecidableEq

def Op.text : Op → String
  | .exact => "="
  | .greater => ">"
  | .greaterEq => ">="
  | .less => "<"
  | .lessEq => "<="
  | .tilde => "~"
  | .caret => "^"

/-- One condition of a requirement. -/
inductive Comparator where
  | major (op : Op) (major : UInt64)
  | minor (op : Op) (major minor : UInt64)
  | patch (op : Op) (major minor patch : UInt64) (pre : Prerelease)
  | wildMinor (major : UInt64)
  | wildPatch (major minor : UInt64)

def Comparator.display : Comparator → String
  | .major op a => op.text ++ toString a
  | .minor op a b => op.text ++ toString a ++ "." ++ toString b
  | .patch op a b c p => op.text ++ toString a ++ "." ++ toString b ++ "." ++ toString c ++
    String.ofList (optPart '-' p.text)
  | .wildMinor a => toString a ++ ".*"
  | .wildPatch a b => toString a ++ "." ++ toString b ++ ".*"

/-- `Display for VersionReq`. -/
def displayComparators : List Comparator → String
  | [] => "*"
  | [c] => c.display
  | c :: cs => c.display ++ ", " ++ displayComparators cs

/-- `semver::VersionReq`, by its `Display` text; it has no more conditions than the parser takes. -/
structure VersionReq where
  display : String
  canonical : ∃ cs, cs.length ≤ 32 ∧ display = displayComparators cs
deriving DecidableEq

/-- `^major.minor.patch`. -/
def VersionReq.caret (major minor patch : UInt64) : VersionReq :=
  ⟨_, [.patch .caret major minor patch Prerelease.EMPTY], Nat.le_add_left 1 31, rfl⟩

example : (VersionReq.caret 1 2 0).display = "^1.2.0" := by decide

/-! ## The parsers -/

/-- **The parsers of `semver`**, which read back what was displayed. -/
structure Semver where
  parseVersion : String → Option Version
  parseReq : String → Option VersionReq
  parseVersion_display : ∀ v : Version, parseVersion v.display = some v
  parseReq_display : ∀ r : VersionReq, parseReq r.display = some r

open Classical in
/-- Parsers of the canonical texts alone. -/
noncomputable def Semver.canonical : Semver where
  parseVersion s := if h : ∃ v : Version, v.display = s then some h.choose else none
  parseReq s := if h : ∃ cs, cs.length ≤ 32 ∧ s = displayComparators cs then some ⟨s, h⟩ else none
  parseVersion_display v := by
    have h : ∃ w : Version, w.display = v.display := ⟨v, rfl⟩
    rw [dif_pos h, Version.display_injective h.choose_spec]
  parseReq_display r := dif_pos r.canonical

end Freighter
