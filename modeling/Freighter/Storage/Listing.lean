import Freighter.Lib.Run
import Freighter.Storage.Fs

/-!
# What the filesystem store lists

* `StoreCall`, `storeStep`: puts and deletes at keys; `live`: the files that they leave.
* `Holds`: the tree below the root has the live files and the directories of all keys that were
  ever put; **`holds_final`**.
* `ListsKeys`: a listing returns the live keys of a directory, each once, as they were put.
* **`listsKeys_iff`**: exactly when it does.
-/

namespace Freighter

namespace FsStorage

open FileTree UnixPath

/-! ## The calls -/

inductive StoreCall where
  | put (k : Key) (fileBytes : Bytes)
  | delete (k : Key)

def StoreCall.key : StoreCall → Key
  | .put k _ => k
  | .delete k => k

def storeStep (root : String) (fs : Disk Bytes) : StoreCall → Except StorageError Unit × Disk Bytes
  | .put k fileBytes => putFile root fs k.text fileBytes
  | .delete k => deleteFile root fs k.text

/-- No key is a directory of another. -/
def Apart (calls : List StoreCall) : Prop :=
  ∀ c ∈ calls, ∀ c' ∈ calls, c.key.names <+: c'.key.names → c.key = c'.key

/-- The files that the calls leave. -/
def live (calls : List StoreCall) : HashMap Key Bytes :=
  calls.foldl (fun files c =>
    match c with
    | .put k fileBytes => files.insert k fileBytes
    | .delete k => files.erase k) ∅

/-- The key has been put. -/
def Put (calls : List StoreCall) (k : Key) : Prop := ∃ fileBytes, .put k fileBytes ∈ calls

section Live

variable {calls : List StoreCall} {k : Key}

theorem live_put (calls : List StoreCall) (k : Key) (fileBytes : Bytes) :
    live (calls ++ [.put k fileBytes]) = (live calls).insert k fileBytes := by
  rw [live, List.foldl_append]
  rfl

theorem live_delete (calls : List StoreCall) (k : Key) :
    live (calls ++ [.delete k]) = (live calls).erase k := by
  rw [live, List.foldl_append]
  rfl

theorem put_concat {c : StoreCall} :
    Put (calls ++ [c]) k ↔ Put calls k ∨ ∃ fileBytes, c = .put k fileBytes := by
  unfold Put
  simp only [List.mem_append, List.mem_singleton, exists_or, eq_comm]

/-- A live key has been put. -/
theorem put_of_live (h : k ∈ live calls) : Put calls k := by
  induction calls using List.reverseRecOn with
  | nil => exact absurd h (AList.notMem_empty k)
  | append_singleton calls c ih =>
    rw [put_concat]
    cases c with
    | put k' fileBytes =>
      rw [live_put] at h
      rcases (AList.mem_insert _).mp h with rfl | h
      · exact Or.inr ⟨fileBytes, rfl⟩
      · exact Or.inl (ih h)
    | delete k' =>
      rw [live_delete] at h
      exact Or.inl (ih (AList.mem_erase.mp h).2)

end Live

/-! ## The tree below the root -/

/-- The root leads to `base`, and the tree below it is what the calls make of it. -/
structure Holds (root : String) (base : Location) (fs : Disk Bytes) (calls : List StoreCall) :
    Prop where
  rooted : Rooted root fs base
  file : ∀ rest, rest ≠ [] → ∀ fileBytes,
    fs.nodes.lookup (base ++ rest) = some (.file fileBytes) ↔
      ∃ k : Key, k.names = rest ∧ (live calls).lookup k = some fileBytes
  dir : ∀ rest, rest ≠ [] →
    (fs.IsDir (base ++ rest) ↔ ∃ k, Put calls k ∧ rest <+: k.names ∧ rest ≠ k.names)

section Holds

variable {root : String} {base : Location} {fs : Disk Bytes} {calls : List StoreCall}

theorem Holds.lookup (h : Holds root base fs calls) (k : Key) (fileBytes : Bytes) :
    fs.nodes.lookup (base ++ k.names) = some (.file fileBytes) ↔
      (live calls).lookup k = some fileBytes := by
  rw [h.file k.names k.nonempty]
  constructor
  · rintro ⟨k', hk', hl⟩
    exact Key.ext hk' ▸ hl
  · exact fun hl => ⟨k, rfl, hl⟩

section Put

variable {k : Key} {fileBytes : Bytes}

/-- A key that was put keeps away from the new one. -/
theorem eq_of_put (ha : Apart (calls ++ [.put k fileBytes])) {k' : Key} (hk' : Put calls k')
    (hp : k.names <+: k'.names ∨ k'.names <+: k.names) : k' = k := by
  have hself : StoreCall.put k fileBytes ∈ calls ++ [.put k fileBytes] :=
    List.mem_append_right _ (List.mem_singleton_self _)
  obtain ⟨b, hb⟩ := hk'
  rcases hp with hp | hp
  · exact (ha _ hself _ (List.mem_append_left _ hb) hp).symm
  · exact ha _ (List.mem_append_left _ hb) _ hself hp

theorem Holds.file_put (h : Holds root base fs calls) (ha : Apart (calls ++ [.put k fileBytes]))
    {fs' : Disk Bytes} (hput : Placed base k fileBytes fs fs') {rest : Location}
    (hrest : rest ≠ []) (b : Bytes) :
    fs'.nodes.lookup (base ++ rest) = some (.file b) ↔
      ∃ k' : Key, k'.names = rest ∧ ((live calls).insert k fileBytes).lookup k' = some b := by
  by_cases hr : rest = k.names
  · subst hr
    rw [hput.file]
    constructor
    · intro e
      cases e
      exact ⟨k, rfl, AList.lookup_insert _⟩
    · rintro ⟨k', hk', hl⟩
      rw [Key.ext hk', AList.lookup_insert] at hl
      cases hl
      rfl
  · have hlive : ∀ k' : Key, k'.names = rest →
        ((live calls).insert k fileBytes).lookup k' = (live calls).lookup k' := by
      rintro k' rfl
      exact AList.lookup_insert_ne fun e => hr (congrArg Key.names e)
    by_cases hp : rest <+: k.names
    · constructor
      · intro hl
        cases hl.symm.trans (hput.dirs rest hp hr)
      · rintro ⟨k', rfl, hl⟩
        rw [hlive k' rfl] at hl
        have hk' := eq_of_put ha (put_of_live (HashMap.mem_of_lookup hl)) (Or.inr hp)
        exact absurd (congrArg Key.names hk') hr
    · rw [hput.below hp, h.file rest hrest b]
      exact exists_congr fun k' => and_congr_right fun hk' => by rw [hlive k' hk']

theorem Holds.dir_put (h : Holds root base fs calls) (ha : Apart (calls ++ [.put k fileBytes]))
    {fs' : Disk Bytes} (hput : Placed base k fileBytes fs fs') {rest : Location}
    (hrest : rest ≠ []) :
    fs'.IsDir (base ++ rest) ↔
      ∃ k', Put (calls ++ [.put k fileBytes]) k' ∧ rest <+: k'.names ∧ rest ≠ k'.names := by
  have hcalls : ∀ k', Put (calls ++ [.put k fileBytes]) k' ↔ Put calls k' ∨ k' = k := by
    intro k'
    rw [put_concat]
    refine or_congr Iff.rfl ⟨?_, ?_⟩
    · rintro ⟨b, e⟩
      cases e
      rfl
    · rintro rfl
      exact ⟨fileBytes, rfl⟩
  by_cases hr : rest = k.names
  · subst hr
    constructor
    · intro hd
      cases hput.file.symm.trans hd
    · rintro ⟨k', hk', hp, hne⟩
      refine absurd (congrArg Key.names ?_).symm hne
      exact ((hcalls k').mp hk').elim (fun hk' => eq_of_put ha hk' (Or.inl hp)) id
  · by_cases hp : rest <+: k.names
    · exact ⟨fun _ => ⟨k, (hcalls k).mpr (Or.inr rfl), hp, hr⟩, fun _ => hput.dirs rest hp hr⟩
    · have hsame : fs'.IsDir (base ++ rest) ↔ fs.IsDir (base ++ rest) := by
        unfold Disk.IsDir
        rw [hput.below hp]
      rw [hsame, h.dir rest hrest]
      constructor
      · rintro ⟨k', hk', hrest'⟩
        exact ⟨k', (hcalls k').mpr (Or.inl hk'), hrest'⟩
      · rintro ⟨k', hk', hp', hne⟩
        rcases (hcalls k').mp hk' with hk' | rfl
        · exact ⟨k', hk', hp', hne⟩
        · exact absurd hp' hp

/-- **A put.** -/
theorem holds_put (h : Holds root base fs calls) (ha : Apart (calls ++ [.put k fileBytes])) :
    Holds root base (storeStep root fs (.put k fileBytes)).2 (calls ++ [.put k fileBytes]) := by
  have hdirs : ∀ q, q <+: k.names → q ≠ k.names → base ++ q ∈ fs.nodes → fs.IsDir (base ++ q) := by
    intro q hq hne hmem
    by_cases hq' : q = []
    · rw [hq', List.append_nil]
      exact h.rooted.dir
    · obtain ⟨node, hnode⟩ := Option.isSome_iff_exists.mp (AList.lookup_isSome.mpr hmem)
      cases node with
      | dir => exact hnode
      | file b =>
        obtain ⟨k', rfl, hl⟩ := (h.file q hq' b).mp hnode
        have hk' := eq_of_put ha (put_of_live (HashMap.mem_of_lookup hl)) (Or.inr hq)
        exact absurd (congrArg Key.names hk') hne
  have hnotDir : ¬ fs.IsDir (base ++ k.names) := by
    intro hd
    obtain ⟨k', hk', hp, hne⟩ := (h.dir k.names k.nonempty).mp hd
    exact hne (congrArg Key.names (eq_of_put ha hk' (Or.inl hp))).symm
  obtain ⟨fs', hok, hput⟩ := putFile_key h.rooted hdirs hnotDir fileBytes
  have hstep : (storeStep root fs (.put k fileBytes)).2 = fs' := congrArg Prod.snd hok
  rw [hstep]
  refine ⟨h.rooted.keeps hput.keeps, fun rest hrest b => ?_, fun rest hrest => ?_⟩
  · rw [live_put]
    exact h.file_put ha hput hrest b
  · exact h.dir_put ha hput hrest

end Put

theorem put_delete {k k' : Key} : Put (calls ++ [.delete k]) k' ↔ Put calls k' := by
  rw [put_concat]
  exact or_iff_left fun ⟨b, e⟩ => nomatch e

/-- A delete of a key that is not there. -/
theorem Holds.delete_missing (h : Holds root base fs calls) {k : Key}
    (hl : (live calls).lookup k = none) :
    Holds root base (storeStep root fs (.delete k)).2 (calls ++ [.delete k]) := by
  have hstep : (storeStep root fs (.delete k)).2 = fs :=
    deleteFile_missing h.rooted fun b hb => nomatch hl.symm.trans ((h.lookup k b).mp hb)
  have hlive : ∀ k', (live (calls ++ [.delete k])).lookup k' = (live calls).lookup k' := by
    intro k'
    rw [live_delete]
    by_cases hk : k' = k
    · rw [hk, AList.lookup_erase, hl]
    · exact AList.lookup_erase_ne hk
  rw [hstep]
  refine ⟨h.rooted, fun rest hrest b => ?_, fun rest hrest => ?_⟩
  · simp only [h.file rest hrest b, hlive]
  · simp only [h.dir rest hrest, put_delete]

/-- **A delete.** -/
theorem holds_delete (h : Holds root base fs calls) (k : Key) :
    Holds root base (storeStep root fs (.delete k)).2 (calls ++ [.delete k]) := by
  cases hl : (live calls).lookup k with
  | none => exact h.delete_missing hl
  | some bytes =>
    obtain ⟨fs', hdel, hkeep, hgone, hother⟩ := deleteFile_key h.rooted ((h.lookup k bytes).mpr hl)
    have hstep : (storeStep root fs (.delete k)).2 = fs' := congrArg Prod.snd hdel
    rw [hstep]
    refine ⟨h.rooted.keeps hkeep, fun rest hrest b => ?_, fun rest hrest => ?_⟩
    · rw [live_delete]
      by_cases hr : rest = k.names
      · subst hr
        rw [hgone]
        refine ⟨fun e => (nomatch e), ?_⟩
        rintro ⟨k', hk', hl'⟩
        rw [Key.ext hk', AList.lookup_erase] at hl'
        cases hl'
      · rw [hother _ fun e => hr (List.append_cancel_left e), h.file rest hrest b]
        refine exists_congr fun k' => and_congr_right ?_
        rintro rfl
        rw [AList.lookup_erase_ne fun e => hr (congrArg Key.names e)]
    · have hdir : fs'.IsDir (base ++ rest) ↔ fs.IsDir (base ++ rest) := by
        unfold Disk.IsDir
        by_cases hr : rest = k.names
        · rw [hr, hgone, (h.lookup k bytes).mpr hl]
          exact ⟨fun e => (nomatch e), fun e => (nomatch e)⟩
        · rw [hother _ fun e => hr (List.append_cancel_left e)]
      rw [hdir, h.dir rest hrest]
      simp only [put_delete]

/-- **The run.** -/
theorem holds_final (hbase : Rooted root fs base)
    (hempty : ∀ rest, rest ≠ [] → base ++ rest ∉ fs.nodes) (ha : Apart calls) :
    Holds root base (Run.final (storeStep root) fs calls) calls := by
  induction calls using List.reverseRecOn with
  | nil =>
    refine ⟨hbase, fun rest hrest b => ?_, fun rest hrest => ?_⟩
    · refine ⟨fun hl => absurd (HashMap.mem_of_lookup hl) (hempty rest hrest), ?_⟩
      rintro ⟨k, -, hl⟩
      cases hl
    · refine ⟨fun hd => absurd hd.mem (hempty rest hrest), ?_⟩
      rintro ⟨k, ⟨b, hb⟩, -⟩
      cases hb
  | append_singleton calls c ih =>
    have hholds := ih fun c hc c' hc' =>
      ha c (List.mem_append_left _ hc) c' (List.mem_append_left _ hc')
    rw [Run.final_concat]
    cases c with
    | put k fileBytes => exact holds_put hholds ha
    | delete k => exact holds_delete hholds k

/-- What is below the root: the live files and the directories of the keys. -/
theorem Holds.mem_iff (h : Holds root base fs calls) {rest : Location} (hrest : rest ≠ []) :
    base ++ rest ∈ fs.nodes ↔ (∃ k ∈ live calls, k.names = rest) ∨
      ∃ k, Put calls k ∧ rest <+: k.names ∧ rest ≠ k.names := by
  rw [← h.dir rest hrest, ← AList.lookup_isSome, Option.isSome_iff_exists]
  constructor
  · rintro ⟨node, hnode⟩
    cases node with
    | dir => exact Or.inr hnode
    | file b =>
      obtain ⟨k, hk, hl⟩ := (h.file rest hrest b).mp hnode
      exact Or.inl ⟨k, HashMap.mem_of_lookup hl, hk⟩
  · rintro (⟨k, hk, rfl⟩ | hd)
    · obtain ⟨b, hb⟩ := Option.isSome_iff_exists.mp (AList.lookup_isSome.mpr hk)
      exact ⟨.file b, (h.lookup k b).mpr hb⟩
    · exact ⟨.dir, hd⟩

theorem Holds.plain (h : Holds root base fs calls) {rest : Location}
    (hmem : base ++ rest ∈ fs.nodes) : ∀ n ∈ rest, Plain n := by
  by_cases hrest : rest = []
  · rw [hrest]
    exact fun n hn => nomatch hn
  · rcases (h.mem_iff hrest).mp hmem with ⟨k, -, rfl⟩ | ⟨k, -, hp, -⟩
    · exact k.plain
    · exact fun n hn => k.plain n (hp.subset hn)

end Holds

/-! ## The listing -/

section Listing

variable {order : Disk.Order} {root : String} {base : Location} {fs : Disk Bytes}
  {calls : List StoreCall} {p : Prefix}

theorem Holds.isDir_prefix (h : Holds root base fs calls) (p : Prefix) :
    fs.IsDir (base ++ p.names) ↔ (p.names ≠ [] → ∃ k, Put calls k ∧ p.Under k) := by
  by_cases hp : p.names = []
  · rw [hp, List.append_nil]
    exact ⟨fun _ hn => absurd rfl hn, fun _ => h.rooted.dir⟩
  · rw [h.dir _ hp]
    refine ⟨?_, fun hn => ?_⟩
    · rintro ⟨k, hk, ⟨rest, hrest⟩, hne⟩ -
      refine ⟨k, hk, rest, fun e => hne ?_, hrest.symm⟩
      rw [← hrest, e, List.append_nil]
    · obtain ⟨k, hk, rest, hrest, hnames⟩ := hn hp
      refine ⟨k, hk, ⟨rest, hnames.symm⟩, fun e => hrest ?_⟩
      exact List.append_right_eq_self.mp (hnames.symm.trans e.symm)

theorem join_text_injective (root : String) :
    Function.Injective fun k : Key => join root k.text := by
  intro k k' h
  simp only [join_of_relative (isAbsolute_text _)] at h
  have htext := congrArg String.toList h
  simp only [String.toList_append, List.append_right_inj] at htext
  exact Key.text_injective (String.toList_inj.mp htext)

/-- **What is listed**: the files and the directories below the prefix, under the root. -/
theorem Holds.listed (horder : ∀ loc es, (order loc es).Perm es) (h : Holds root base fs calls)
    (hne : root ≠ "" ∨ p.names ≠ []) (hd : fs.IsDir (base ++ p.names)) :
    ∃ out, listPrefix order root fs p.text = .ok out ∧ out.Nodup ∧
      ∀ path, path ∈ out ↔
        ∃ k : Key, p.Under k ∧ base ++ k.names ∈ fs.nodes ∧ path = join root k.text := by
  have hplain : ∀ rest, base ++ p.names ++ rest ∈ fs.nodes → ∀ n ∈ p.names ++ rest, Plain n := by
    intro rest hmem
    rw [List.append_assoc] at hmem
    exact h.plain hmem
  have hfuel : fs.depth < fs.depth + 1 + (base ++ p.names).length := by omega
  have hkey : ∀ rest, rest ∈ fs.below order (fs.depth + 1) (base ++ p.names) →
      ∃ k : Key, k.names = p.names ++ rest ∧ rest ≠ [] ∧ base ++ k.names ∈ fs.nodes := by
    intro rest hrest
    obtain ⟨hne, hmem⟩ := (Disk.mem_below horder hfuel).mp hrest
    have happ : p.names ++ rest ≠ [] := fun e => hne (List.append_eq_nil_iff.mp e).2
    exact ⟨⟨p.names ++ rest, happ, hplain rest hmem⟩, rfl, hne, by rwa [← List.append_assoc]⟩
  refine ⟨_, listPrefix_eq horder h.rooted hne hd fun rest hmem n hn =>
    hplain rest hmem n (List.mem_append_right _ hn), ?_, fun path => ?_⟩
  · refine List.Nodup.map_on (fun r hr r' hr' e => ?_) (Disk.nodup_below horder _ _)
    obtain ⟨k, hk, -⟩ := hkey r hr
    obtain ⟨k', hk', -⟩ := hkey r' hr'
    rw [← hk, ← hk'] at e
    have hnames := congrArg Key.names (join_text_injective root e)
    rw [hk, hk'] at hnames
    exact List.append_cancel_left hnames
  · rw [List.mem_map]
    constructor
    · rintro ⟨rest, hrest, rfl⟩
      obtain ⟨k, hk, hne', hmem⟩ := hkey rest hrest
      exact ⟨k, ⟨rest, hne', hk⟩, hmem, by rw [Key.text, hk]⟩
    · rintro ⟨k, ⟨rest, hne', hk⟩, hmem, rfl⟩
      refine ⟨rest, (Disk.mem_below horder hfuel).mpr ⟨hne', ?_⟩, by rw [Key.text, hk]⟩
      rwa [List.append_assoc, ← hk]

variable (order root fs calls p) in
/-- The listing returns the live keys of the directory, each once and as it was put, and each can be
pulled. -/
def ListsKeys : Prop :=
  ∃ out, listPrefix order root fs p.text = .ok out ∧ out.Nodup ∧
    (∀ path, path ∈ out ↔ ∃ k ∈ live calls, p.Under k ∧ path = k.text) ∧
    ∀ path ∈ out, ∃ k fileBytes, path = k.text ∧ (live calls).lookup k = some fileBytes ∧
      pullFile root fs path = .ok fileBytes

variable (root calls p) in
/-- The directory of the prefix was made, no key was put deeper in it, and none of its keys is live
unless the root is the empty path. -/
structure Flat : Prop where
  start : root ≠ "" ∨ p.names ≠ []
  made : p.names ≠ [] → ∃ k, Put calls k ∧ p.Under k
  flat : ∀ k, Put calls k → p.Under k → ∃ name, k.names = p.names ++ [name]
  gone : root ≠ "" → ∀ k ∈ live calls, ¬ p.Under k

theorem lt_length_join (hr : root ≠ "") (k : Key) : k.text.length < (join root k.text).length := by
  have hpos : 0 < root.length := Nat.pos_of_ne_zero fun e => hr (String.length_eq_zero_iff.mp e)
  rw [join_of_relative (isAbsolute_text k), String.length_append, String.length_append]
  omega

/-- A list of keys joined to a root cannot be the keys themselves. -/
theorem not_under_of_closed (hr : root ≠ "") {out : List String} {live : HashMap Key Bytes}
    (hclosed : ∀ k ∈ live, p.Under k → join root k.text ∈ out)
    (hout : ∀ path ∈ out, ∃ k ∈ live, p.Under k ∧ path = k.text) {k : Key} (hk : k ∈ live) :
    ¬ p.Under k := by
  intro hu
  -- each key gives a longer one
  have hlong : ∀ n, ∃ k ∈ live, p.Under k ∧ n ≤ k.text.length := by
    intro n
    induction n with
    | zero => exact ⟨k, hk, hu, Nat.zero_le _⟩
    | succ n ih =>
      obtain ⟨k₁, hk₁, hu₁, hn⟩ := ih
      obtain ⟨k₂, hk₂, hu₂, he⟩ := hout _ (hclosed k₁ hk₁ hu₁)
      exact ⟨k₂, hk₂, hu₂, he ▸ hn.trans_lt (lt_length_join hr k₁)⟩
  obtain ⟨k', hk', hu', hn⟩ := hlong ((out.map String.length).foldr max 0)
  have hmem := List.mem_map_of_mem (f := String.length) (hclosed k' hk' hu')
  have hmax : (join root k'.text).length ≤ (out.map String.length).foldr max 0 :=
    List.le_max_of_le hmem le_rfl
  exact absurd (hn.trans_lt (lt_length_join hr k')) (not_lt.mpr hmax)

theorem Holds.flat_of_listsKeys (horder : ∀ loc es, (order loc es).Perm es)
    (h : Holds root base fs calls) (hl : ListsKeys order root fs calls p) : Flat root calls p := by
  obtain ⟨out, hout, -, hmem, -⟩ := hl
  have hstart : (root ≠ "" ∨ p.names ≠ []) ∧ fs.IsDir (base ++ p.names) := by
    by_contra hc
    have herr : ∃ e, listPrefix order root fs p.text = .error e := listPrefix_error h.rooted hc
    obtain ⟨e, he⟩ := herr
    cases he.symm.trans hout
  obtain ⟨out', hout', -, hmem'⟩ := h.listed horder hstart.1 hstart.2
  cases hout.symm.trans hout'
  have hlisted : ∀ k, p.Under k → base ++ k.names ∈ fs.nodes →
      ∃ k' ∈ live calls, p.Under k' ∧ join root k.text = k'.text := fun k hu hk =>
    (hmem _).mp ((hmem' _).mpr ⟨k, hu, hk, rfl⟩)
  have hgone : root ≠ "" → ∀ k ∈ live calls, ¬ p.Under k := by
    intro hr k hk
    refine not_under_of_closed hr (fun k' hk' hu' => ?_) (fun path hp => (hmem path).mp hp) hk
    exact (hmem' _).mpr ⟨k', hu', (h.mem_iff k'.nonempty).mpr (Or.inl ⟨k', hk', rfl⟩), rfl⟩
  refine ⟨hstart.1, (h.isDir_prefix p).mp hstart.2, fun k hk hu => ?_, hgone⟩
  obtain ⟨rest, hrest, hnames⟩ := hu
  cases rest with
  | nil => exact absurd rfl hrest
  | cons name rest =>
    by_cases hdeep : rest = []
    · exact ⟨name, hdeep ▸ hnames⟩
    · -- the directory that holds the key is listed as well
      have hp : p.names ++ [name] <+: k.names := ⟨rest, by rw [hnames, List.append_assoc]; rfl⟩
      have hne : p.names ++ [name] ≠ k.names := fun e => hdeep <| by
        rw [hnames] at e
        exact (List.cons_eq_cons.mp (List.append_cancel_left e)).2.symm
      let dir : Key := ⟨p.names ++ [name], by simp, fun n hn => k.plain n (hp.subset hn)⟩
      have hdir : fs.IsDir (base ++ dir.names) := (h.dir _ dir.nonempty).mpr ⟨k, hk, hp, hne⟩
      obtain ⟨k', hk', hu', htext⟩ := hlisted dir ⟨[name], by simp, rfl⟩ hdir.mem
      by_cases hr : root = ""
      · rw [hr, join_empty_left] at htext
        obtain rfl := Key.text_injective htext
        obtain ⟨b, hb⟩ := Option.isSome_iff_exists.mp (AList.lookup_isSome.mpr hk')
        cases ((h.lookup _ b).mpr hb).symm.trans hdir
      · exact absurd hu' (hgone hr k' hk')

theorem Holds.listsKeys_of_flat (horder : ∀ loc es, (order loc es).Perm es)
    (h : Holds root base fs calls) (hf : Flat root calls p) : ListsKeys order root fs calls p := by
  have hd := (h.isDir_prefix p).mpr hf.made
  obtain ⟨out, hout, hnodup, hmem⟩ := h.listed horder hf.start hd
  have hfile : ∀ k, p.Under k → base ++ k.names ∈ fs.nodes → k ∈ live calls := by
    intro k hu hk
    rcases (h.mem_iff k.nonempty).mp hk with ⟨k', hk', hnames⟩ | ⟨k', hk', ⟨rest, hrest⟩, hne⟩
    · exact Key.ext hnames ▸ hk'
    · obtain ⟨r, hr, hkr⟩ := hu
      have hu' : p.Under k' := ⟨r ++ rest, fun e => hr (List.append_eq_nil_iff.mp e).1, by
        rw [← hrest, hkr, List.append_assoc]⟩
      obtain ⟨name, hname⟩ := hf.flat k' hk' hu'
      rw [← hrest, hkr, List.append_assoc] at hname
      rcases List.append_eq_singleton_iff.mp (List.append_cancel_left hname) with ⟨e, -⟩ | ⟨-, e⟩
      · exact absurd e hr
      · rw [e, List.append_nil] at hrest
        exact absurd hrest hne
  have hlist : ∀ path, path ∈ out ↔ ∃ k ∈ live calls, p.Under k ∧ path = k.text := by
    intro path
    rw [hmem]
    by_cases hr : root = ""
    · subst hr
      constructor
      · rintro ⟨k, hu, hk, rfl⟩
        exact ⟨k, hfile k hu hk, hu, join_empty_left _⟩
      · rintro ⟨k, hk, hu, rfl⟩
        refine ⟨k, hu, ?_, (join_empty_left _).symm⟩
        exact (h.mem_iff k.nonempty).mpr (Or.inl ⟨k, hk, rfl⟩)
    · constructor
      · rintro ⟨k, hu, hk, -⟩
        exact absurd hu (hf.gone hr k (hfile k hu hk))
      · rintro ⟨k, hk, hu, -⟩
        exact absurd hu (hf.gone hr k hk)
  refine ⟨out, hout, hnodup, hlist, fun path hp => ?_⟩
  obtain ⟨k, hk, -, rfl⟩ := (hlist path).mp hp
  obtain ⟨b, hb⟩ := Option.isSome_iff_exists.mp (AList.lookup_isSome.mpr hk)
  exact ⟨k, b, rfl, hb, pullFile_key h.rooted ((h.lookup k b).mpr hb)⟩

/-- **Exactly when a listing speaks the keys of the store.** -/
theorem listsKeys_iff (order : Disk.Order) (horder : ∀ loc es, (order loc es).Perm es)
    (root : String) (fs₀ fs : Disk Bytes) (hnew : new root fs₀ = (.ok (), fs))
    (hempty : ∀ base, fs.walk fs.cwd (components root) = .ok base →
      ∀ rest, rest ≠ [] → base ++ rest ∉ fs.nodes)
    (calls : List StoreCall) (ha : Apart calls) (p : Prefix) :
    ListsKeys order root (Run.final (storeStep root) fs calls) calls p ↔ Flat root calls p := by
  obtain ⟨base, hbase⟩ := rooted_new hnew
  have h := holds_final hbase (hempty base hbase.walk) ha
  exact ⟨h.flat_of_listsKeys horder, h.listsKeys_of_flat horder⟩

/-- Two files in a directory, one of them written twice, and a file elsewhere. -/
def flatFiles : List StoreCall :=
  [.put ⟨["index", "a"], by decide, by decide⟩ [1],
    .put ⟨["crates", "c"], by decide, by decide⟩ [2],
    .put ⟨["index", "b"], by decide, by decide⟩ [3],
    .put ⟨["index", "a"], by decide, by decide⟩ [4]]

/-- Below the empty path, the directory is listed by its keys. -/
theorem listsKeys_iff_files :
    ListsKeys (fun _ es => es) "" (Run.final (storeStep "") Disk.bare flatFiles) flatFiles
      ⟨["index"], by decide, true⟩ := by
  have hput : ∀ k, Put flatFiles k → k.names = ["index", "a"] ∨ k.names = ["crates", "c"] ∨
      k.names = ["index", "b"] := by
    rintro k ⟨b, hb⟩
    simp only [flatFiles, List.mem_cons, StoreCall.put.injEq, List.not_mem_nil, or_false] at hb
    rcases hb with ⟨rfl, -⟩ | ⟨rfl, -⟩ | ⟨rfl, -⟩ | ⟨rfl, -⟩ <;> simp
  have happart : Apart flatFiles := by
    unfold Apart flatFiles
    decide
  have hempty : ∀ base, (Disk.bare : Disk Bytes).walk [] (components "") = .ok base →
      ∀ rest, rest ≠ [] → base ++ rest ∉ (Disk.bare : Disk Bytes).nodes := by
    intro base hbase rest hrest hmem
    cases hbase
    rw [Disk.bare, AList.mem_keys, AList.keys_singleton, List.mem_singleton] at hmem
    exact hrest hmem
  refine (listsKeys_iff (fun _ es => es) (fun _ _ => .refl _) "" Disk.bare Disk.bare rfl hempty
    flatFiles happart _).mpr
    ⟨Or.inr (by decide), fun _ => ?_, fun k hk hu => ?_, fun hr => absurd rfl hr⟩
  · exact ⟨⟨["index", "a"], by decide, by decide⟩, ⟨[1], List.mem_cons_self⟩, ["a"], by decide, rfl⟩
  · rcases hput k hk with h | h | h
    · exact ⟨"a", h⟩
    · obtain ⟨rest, -, hrest⟩ := hu
      rw [h] at hrest
      exact absurd (List.cons.inj hrest).1 (by decide)
    · exact ⟨"b", h⟩

/-- A crate's index file below the root `r`: the listing has the paths of the file and of its two
directories, all with the root in front, and the path of the file cannot be pulled. -/
theorem listing_not_keys :
    let k : Key := ⟨["index", "se", "rd", "serde"], by decide, by decide⟩
    let calls := [StoreCall.put k [1]]
    let p : Prefix := ⟨["index"], by decide, true⟩
    let fs := Run.final (storeStep "r") (new "r" Disk.bare).2 calls
    p.text = "index/" ∧ (live calls).lookup k = some [1] ∧
      listPrefix (fun _ es => es) "r" fs "index/" =
        .ok ["r/index/se/rd/serde", "r/index/se/rd", "r/index/se"] ∧
      pullFile "r" fs "r/index/se/rd/serde" = .error .notFound ∧
      ¬ ListsKeys (fun _ es => es) "r" fs calls p := by
  intro k calls p fs
  have hlist : listPrefix (fun _ es => es) "r" fs p.text =
      .ok ["r/index/se/rd/serde", "r/index/se/rd", "r/index/se"] := by decide
  refine ⟨by decide, by decide, hlist, by decide, ?_⟩
  rintro ⟨out, hout, -, hmem, -⟩
  cases hlist.symm.trans hout
  have hkey := (hmem k.text).mpr ⟨k, by decide, ⟨["se", "rd", "serde"], by decide, rfl⟩, rfl⟩
  exact absurd hkey (by decide)

end Listing

end FsStorage

end Freighter
