import Mathlib.Data.List.Dedup
import Mathlib.Data.List.Nodup
import Mathlib.Data.List.Perm.Basic

/-!
# Queries over lists of rows

`join`, `leftJoin` and `groupBy`, with the rows of a group in a list for its aggregates.

* `mem_join`, `mem_leftJoin`; `join_eq_flatMap`, **`leftJoin_flatMap`**: a join goes row by row;
* **`groupBy_flatMap`**, `groupBy_where`: if the rows come from a table by its keys, the groups are
  its rows;
* `mapM_block`: what a part of the rows is converted to;
* `exists_of_mem_left`, `exists_of_mem_right`: from a row to its result and back.
-/

namespace Query

variable {α β γ κ : Type}

/-- `join … on …`. -/
def join (on : α → β → Bool) (as : List α) (bs : List β) : List (α × β) :=
  as.flatMap fun a => (bs.filter (on a)).map fun b => (a, b)

/-- The matches of a row, or a null for it. -/
def orNull : List β → List (Option β)
  | [] => [none]
  | b :: bs => some b :: bs.map some

/-- `left join … on …`. -/
def leftJoin (on : α → β → Bool) (as : List α) (bs : List β) : List (α × Option β) :=
  as.flatMap fun a => (orNull (bs.filter (on a))).map fun b => (a, b)

/-- `group by …`: the keys of the rows, each with its rows. -/
def groupBy [DecidableEq κ] (key : α → κ) (rows : List α) : List (κ × List α) :=
  (rows.map key).dedup.map fun k => (k, rows.filter fun r => key r = k)

/-! ## Joins -/

section Join

variable {on : α → β → Bool} {as : List α} {bs : List β} {a : α} {b : β}

theorem mem_join : (a, b) ∈ join on as bs ↔ a ∈ as ∧ b ∈ bs ∧ on a b = true := by
  simp [join, and_assoc]

@[simp] theorem some_mem_orNull : some b ∈ orNull bs ↔ b ∈ bs := by
  cases bs <;> simp [orNull]

@[simp] theorem none_mem_orNull : none ∈ orNull bs ↔ bs = [] := by
  cases bs <;> simp [orNull]

theorem orNull_ne_nil (bs : List β) : orNull bs ≠ [] := by
  cases bs <;> exact List.cons_ne_nil _ _

theorem mem_leftJoin {b : Option β} :
    (a, b) ∈ leftJoin on as bs ↔ a ∈ as ∧ b ∈ orNull (bs.filter (on a)) := by
  simp [leftJoin]

variable (on bs) in
/-- **A left join loses no row.** -/
theorem exists_mem_leftJoin (ha : a ∈ as) : ∃ b, (a, b) ∈ leftJoin on as bs := by
  obtain ⟨b, hb⟩ := List.exists_mem_of_ne_nil _ (orNull_ne_nil (bs.filter (on a)))
  exact ⟨b, mem_leftJoin.mpr ⟨ha, hb⟩⟩

theorem leftJoin_eq_nil : leftJoin on as bs = [] ↔ as = [] := by
  constructor
  · intro h
    by_contra hne
    obtain ⟨a, ha⟩ := List.exists_mem_of_ne_nil _ hne
    obtain ⟨b, hb⟩ := exists_mem_leftJoin on bs ha
    rw [h] at hb
    exact List.not_mem_nil hb
  · rintro rfl
    rfl

theorem join_eq_flatMap (on : α → β → Bool) (as : List α) (bs : List β) :
    join on as bs = as.flatMap fun a => join on [a] bs := by
  simp [join]

/-- **A left join goes row by row.** -/
theorem leftJoin_flatMap (on : α → β → Bool) (cs : List γ) (f : γ → List α) (bs : List β) :
    leftJoin on (cs.flatMap f) bs = cs.flatMap fun c => leftJoin on (f c) bs :=
  List.flatMap_assoc

/-- A condition on the row that all rows come from. -/
theorem filter_flatMap {p : α → Bool} {q : γ → Bool} {f : γ → List α} :
    ∀ {cs : List γ}, (∀ c ∈ cs, ∀ a ∈ f c, p a = q c) →
      (cs.flatMap f).filter p = (cs.filter q).flatMap f
  | [], _ => rfl
  | c :: cs, h => by
    have ih := filter_flatMap fun c' hc' => h c' (List.mem_cons_of_mem _ hc')
    have hc := h c List.mem_cons_self
    rw [List.flatMap_cons, List.filter_append, ih]
    by_cases hq : q c = true
    · rw [List.filter_cons_of_pos hq, List.flatMap_cons,
        List.filter_eq_self.mpr fun a ha => (hc a ha).trans hq]
    · rw [List.filter_cons_of_neg hq, List.filter_eq_nil_iff.mpr, List.nil_append]
      exact fun a ha => by rwa [hc a ha]

end Join

/-! ## Groups -/

section Group

variable [DecidableEq κ] {key : α → κ} {k : γ → κ} {f : γ → List α}

/-- The rows of one key are those of the one row with it. -/
theorem filter_key_flatMap : ∀ {cs : List γ}, (∀ c ∈ cs, ∀ a ∈ f c, key a = k c) →
    (cs.map k).Nodup → ∀ c ∈ cs, (cs.flatMap f).filter (fun a => key a = k c) = f c
  | [], _, _, _, hc => absurd hc List.not_mem_nil
  | d :: cs, hkey, hn, c, hc => by
    obtain ⟨hd, hn⟩ := List.nodup_cons.mp hn
    have hhead := hkey d List.mem_cons_self
    have htail : ∀ c ∈ cs, ∀ a ∈ f c, key a = k c :=
      fun c' hc' => hkey c' (List.mem_cons_of_mem _ hc')
    rw [List.flatMap_cons, List.filter_append]
    rcases List.mem_cons.mp hc with rfl | hc
    · rw [List.filter_eq_self.mpr fun a ha => decide_eq_true (hhead a ha),
        List.filter_eq_nil_iff.mpr, List.append_nil]
      intro a ha hk
      obtain ⟨c', hc', ha'⟩ := List.mem_flatMap.mp ha
      refine hd (List.mem_map.mpr ⟨c', hc', ?_⟩)
      rw [← htail c' hc' a ha', of_decide_eq_true hk]
    · rw [filter_key_flatMap htail hn c hc, List.filter_eq_nil_iff.mpr, List.nil_append]
      intro a ha hk
      refine hd (List.mem_map.mpr ⟨c, hc, ?_⟩)
      rw [← of_decide_eq_true hk, hhead a ha]

variable (key) in
/-- **The groups are the rows that the rows come from.** -/
theorem groupBy_flatMap {cs : List γ} (hkey : ∀ c ∈ cs, ∀ a ∈ f c, key a = k c)
    (hn : (cs.map k).Nodup) :
    (groupBy key (cs.flatMap f)).Perm
      ((cs.filter fun c => !(f c).isEmpty).map fun c => (k c, f c)) := by
  have hkeys : ((cs.flatMap f).map key).dedup.Perm
      ((cs.filter fun c => !(f c).isEmpty).map k) := by
    apply (List.perm_ext_iff_of_nodup (List.nodup_dedup _)
      (hn.sublist (List.filter_sublist.map _))).mpr
    intro x
    simp only [List.mem_dedup, List.mem_map, List.mem_flatMap, List.mem_filter]
    constructor
    · rintro ⟨a, ⟨c, hc, ha⟩, rfl⟩
      refine ⟨c, ⟨hc, ?_⟩, (hkey c hc a ha).symm⟩
      simpa using List.ne_nil_of_mem ha
    · rintro ⟨c, ⟨hc, hne⟩, rfl⟩
      obtain ⟨a, ha⟩ := List.exists_mem_of_ne_nil (f c) (by simpa using hne)
      exact ⟨a, ⟨c, hc, ha⟩, hkey c hc a ha⟩
  unfold groupBy
  refine (hkeys.map _).trans (List.Perm.of_eq ?_)
  rw [List.map_map]
  apply List.map_congr_left
  intro c hc
  rw [Function.comp_apply, filter_key_flatMap hkey hn c (List.mem_of_mem_filter hc)]

variable (key) in
/-- **A query by the rows of a table**: with `where` on them, and no empty groups. -/
theorem groupBy_where {cs : List γ} {p : α → Bool} {q : γ → Bool}
    (hp : ∀ c ∈ cs, ∀ a ∈ f c, p a = q c) (hkey : ∀ c ∈ cs, ∀ a ∈ f c, key a = k c)
    (hn : ((cs.filter q).map k).Nodup) :
    ((groupBy key ((cs.flatMap f).filter p)).filter fun g => 0 < g.2.length).Perm
      (((cs.filter q).filter fun c => !(f c).isEmpty).map fun c => (k c, f c)) := by
  rw [filter_flatMap hp]
  have hgroups := (groupBy_flatMap key (fun c hc => hkey c (List.mem_of_mem_filter hc)) hn).filter
    fun g => decide (0 < g.2.length)
  have hall : ∀ g ∈ ((cs.filter q).filter fun c => !(f c).isEmpty).map fun c => (k c, f c),
      decide (0 < g.2.length) = true := by
    intro g hg
    obtain ⟨c, hc, rfl⟩ := List.mem_map.mp hg
    exact decide_eq_true (List.length_pos_iff.mpr (by simpa using (List.mem_filter.mp hc).2))
  rw [List.filter_eq_self.mpr hall] at hgroups
  exact hgroups

end Group

/-! ## Conversion -/

/-- **Rows are converted one by one**, so some rows in their order give their results. -/
theorem mapM_block {f : α → Option β} {P : α → β → Prop} :
    ∀ {l : List α}, (∀ a ∈ l, ∃ b, f a = some b ∧ P a b) →
      ∃ bs, List.Forall₂ P l bs ∧ ∀ i n, ((l.drop i).take n).mapM f = some ((bs.drop i).take n)
  | [], _ => ⟨[], .nil, fun i n => by simp⟩
  | a :: l, h => by
    obtain ⟨b, hb, hP⟩ := h a List.mem_cons_self
    obtain ⟨bs, hall, hblock⟩ := mapM_block fun a' ha' => h a' (List.mem_cons_of_mem _ ha')
    refine ⟨b :: bs, .cons hP hall, fun i n => ?_⟩
    cases i with
    | succ i => exact hblock i n
    | zero =>
      cases n with
      | zero => rfl
      | succ n =>
        rw [List.drop_zero, List.drop_zero, List.take_succ_cons, List.take_succ_cons,
          List.mapM_cons, hb]
        have hrest := hblock 0 n
        rw [List.drop_zero, List.drop_zero] at hrest
        rw [hrest]
        rfl

section Pointwise

variable {R : α → β → Prop} {as : List α} {bs : List β}

theorem exists_of_mem_right {b : β} (h : List.Forall₂ R as bs) (hb : b ∈ bs) : ∃ a ∈ as, R a b := by
  induction h with
  | nil => cases hb
  | cons hR _ ih =>
    rcases List.mem_cons.mp hb with rfl | hb
    · exact ⟨_, List.mem_cons_self, hR⟩
    · obtain ⟨a, ha, hRa⟩ := ih hb
      exact ⟨a, List.mem_cons_of_mem _ ha, hRa⟩

theorem exists_of_mem_left {a : α} (h : List.Forall₂ R as bs) (ha : a ∈ as) : ∃ b ∈ bs, R a b :=
  exists_of_mem_right h.flip ha

end Pointwise

end Query
