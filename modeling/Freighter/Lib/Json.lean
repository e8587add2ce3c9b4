import Freighter.Lib.Hex
import Freighter.Lib.Text

/-!
# JSON values and their text

* `Json`: the values; `render`: the compact text.
* **`SerdeJson`**: what a JSON library is relied on for. Writing a value gives a text without raw
  newline, from which a value that is not nested too deep is read back.
* `renderBytes_injective`, **`compact`**: the compact text in UTF-8 is such a library;
  `fromSlice_cut`: it reads no object that was cut short.
-/

/-- A JSON value. The only numbers are natural; one with a sign, a point or an exponent counts as
one that is too large for every type. -/
inductive Json where
  | null
  | bool (b : Bool)
  | num (n : ℕ)
  | str (s : String)
  | arr (xs : List Json)
  | obj (kvs : List (String × Json))

/-- Nested at most `depth` deep, with numbers of 64 bits. -/
def Json.fits : ℕ → Json → Bool
  | _, null => true
  | _, bool _ => true
  | _, num n => n < 2 ^ 64
  | _, str _ => true
  | 0, arr _ => false
  | 0, obj _ => false
  | depth + 1, arr xs => xs.all (fits depth)
  | depth + 1, obj kvs => kvs.all fun kv => fits depth kv.2

/-- **A JSON library**: `serde_json::to_writer` and `serde_json::from_slice` at the level of values.
Nothing is asked of the texts that were not written. -/
structure SerdeJson where
  toVec : Json → List UInt8
  fromSlice : List UInt8 → Option Json
  fromSlice_toVec : ∀ j, j.fits 127 = true → fromSlice (toVec j) = some j
  newline_notMem : ∀ j, 10 ∉ toVec j
  toVec_ne_nil : ∀ j, toVec j ≠ []

namespace Json

/-! ## The compact text -/

/-- The text of a character inside a string. -/
def escape (c : Char) : List Char :=
  if c = '"' then ['\\', '"']
  else if c = '\\' then ['\\', '\\']
  else if c.toNat = 8 then ['\\', 'b']
  else if c.toNat = 9 then ['\\', 't']
  else if c.toNat = 10 then ['\\', 'n']
  else if c.toNat = 12 then ['\\', 'f']
  else if c.toNat = 13 then ['\\', 'r']
  else if c.toNat < 32 then
    ['\\', 'u', '0', '0', Hex.digit (c.toNat / 16), Hex.digit (c.toNat % 16)]
  else [c]

def quote (s : String) : List Char := '"' :: (s.toList.flatMap escape ++ ['"'])

mutual

/-- The compact text of a value. -/
def render : Json → List Char
  | null => ['n', 'u', 'l', 'l']
  | bool true => ['t', 'r', 'u', 'e']
  | bool false => ['f', 'a', 'l', 's', 'e']
  | num n => n.repr.toList
  | str s => quote s
  | arr [] => ['[', ']']
  | arr (x :: xs) => '[' :: (render x ++ renderElems xs)
  | obj [] => ['{', '}']
  | obj ((k, v) :: kvs) => '{' :: (quote k ++ ':' :: (render v ++ renderMembers kvs))

/-- The rest of an array. -/
def renderElems : List Json → List Char
  | [] => [']']
  | x :: xs => ',' :: (render x ++ renderElems xs)

/-- The rest of an object. -/
def renderMembers : List (String × Json) → List Char
  | [] => ['}']
  | (k, v) :: kvs => ',' :: (quote k ++ ':' :: (render v ++ renderMembers kvs))

end

example : render (obj [("a", arr [num 12, null]), ("b\n", bool true)]) =
    "\x7b\"a\":[12,null],\"b\\n\":true\x7d".toList := by decide

/-! ## The text determines the value -/

/-- Read one character of a string back. -/
def unescape : List Char → Option (Char × List Char)
  | [] => none
  | '\\' :: '"' :: r => some ('"', r)
  | '\\' :: '\\' :: r => some ('\\', r)
  | '\\' :: 'b' :: r => some (Char.ofNat 8, r)
  | '\\' :: 't' :: r => some (Char.ofNat 9, r)
  | '\\' :: 'n' :: r => some (Char.ofNat 10, r)
  | '\\' :: 'f' :: r => some (Char.ofNat 12, r)
  | '\\' :: 'r' :: r => some (Char.ofNat 13, r)
  | '\\' :: 'u' :: '0' :: '0' :: a :: b :: r =>
    some (Char.ofNat (16 * Hex.digits.idxOf a + Hex.digits.idxOf b), r)
  | c :: r => some (c, r)

theorem idxOf_digit : ∀ n < 16, Hex.digits.idxOf (Hex.digit n) = n := by decide

/-- The characters that are escaped by one character. -/
def shortEscapes : List (Char × Char) :=
  [('"', '"'), ('\\', '\\'), (Char.ofNat 8, 'b'), (Char.ofNat 9, 't'), (Char.ofNat 10, 'n'),
    (Char.ofNat 12, 'f'), (Char.ofNat 13, 'r')]

/-- **The three ways to escape a character**: by one character, by its number, not at all. -/
theorem escape_cases (c : Char) :
    (∃ d, (c, d) ∈ shortEscapes ∧ escape c = ['\\', d]) ∨
    (c.toNat < 32 ∧ escape c =
      ['\\', 'u', '0', '0', Hex.digit (c.toNat / 16), Hex.digit (c.toNat % 16)]) ∨
    (32 ≤ c.toNat ∧ c ≠ '"' ∧ c ≠ '\\' ∧ escape c = [c]) := by
  have hc : ∀ n, c.toNat = n → c = Char.ofNat n := fun n h => h ▸ (Char.ofNat_toNat c).symm
  unfold escape
  by_cases h1 : c = '"'
  · exact Or.inl ⟨'"', by simp [shortEscapes, h1], if_pos h1⟩
  by_cases h2 : c = '\\'
  · exact Or.inl ⟨'\\', by simp [shortEscapes, h2], (if_neg h1).trans (if_pos h2)⟩
  rw [if_neg h1, if_neg h2]
  by_cases h3 : c.toNat = 8
  · exact Or.inl ⟨'b', by simp [shortEscapes, hc 8 h3], if_pos h3⟩
  by_cases h4 : c.toNat = 9
  · exact Or.inl ⟨'t', by simp [shortEscapes, hc 9 h4], (if_neg h3).trans (if_pos h4)⟩
  rw [if_neg h3, if_neg h4]
  by_cases h5 : c.toNat = 10
  · exact Or.inl ⟨'n', by simp [shortEscapes, hc 10 h5], if_pos h5⟩
  by_cases h6 : c.toNat = 12
  · exact Or.inl ⟨'f', by simp [shortEscapes, hc 12 h6], (if_neg h5).trans (if_pos h6)⟩
  rw [if_neg h5, if_neg h6]
  by_cases h7 : c.toNat = 13
  · exact Or.inl ⟨'r', by simp [shortEscapes, hc 13 h7], if_pos h7⟩
  rw [if_neg h7]
  by_cases h8 : c.toNat < 32
  · exact Or.inr (Or.inl ⟨h8, if_pos h8⟩)
  · exact Or.inr (Or.inr ⟨Nat.le_of_not_lt h8, h1, h2, if_neg h8⟩)

theorem unescape_short {c d : Char} (h : (c, d) ∈ shortEscapes) (r : List Char) :
    unescape ('\\' :: d :: r) = some (c, r) := by
  simp only [shortEscapes, List.mem_cons, Prod.mk.injEq, List.not_mem_nil, or_false] at h
  rcases h with ⟨rfl, rfl⟩ | ⟨rfl, rfl⟩ | ⟨rfl, rfl⟩ | ⟨rfl, rfl⟩ | ⟨rfl, rfl⟩ | ⟨rfl, rfl⟩ |
    ⟨rfl, rfl⟩ <;> rfl

theorem unescape_escape (c : Char) (r : List Char) : unescape (escape c ++ r) = some (c, r) := by
  rcases escape_cases c with ⟨d, hd, he⟩ | ⟨hlt, he⟩ | ⟨-, -, hb, he⟩
  · rw [he]
    exact unescape_short hd r
  · have hnum : 16 * (c.toNat / 16) + c.toNat % 16 = c.toNat := Nat.div_add_mod _ _
    rw [he]
    simp only [List.cons_append, List.nil_append, unescape,
      idxOf_digit _ (Nat.mod_lt _ (by decide)), idxOf_digit (c.toNat / 16) (by omega)]
    rw [hnum, Char.ofNat_toNat]
  · rw [he]
    simp only [List.cons_append, List.nil_append]
    rw [unescape.eq_def]
    split <;> simp_all

theorem escape_head (c : Char) (r : List Char) (s : List Char) : escape c ++ r ≠ '"' :: s := by
  rcases escape_cases c with ⟨d, -, he⟩ | ⟨-, he⟩ | ⟨-, hq, -, he⟩
  · simp [he]
  · simp [he]
  · simp [he, hq]

theorem escapes_inj : ∀ {cs ds r s : List Char},
    cs.flatMap escape ++ '"' :: r = ds.flatMap escape ++ '"' :: s → cs = ds ∧ r = s
  | [], [], _, _, h => ⟨rfl, (List.cons.inj h).2⟩
  | [], d :: ds, r, s, h => by
    rw [List.flatMap_cons, List.append_assoc] at h
    exact absurd h.symm (escape_head d _ _)
  | c :: cs, [], r, s, h => by
    rw [List.flatMap_cons, List.append_assoc] at h
    exact absurd h (escape_head c _ _)
  | c :: cs, d :: ds, r, s, h => by
    rw [List.flatMap_cons, List.flatMap_cons, List.append_assoc, List.append_assoc] at h
    have h1 := congrArg unescape h
    rw [unescape_escape, unescape_escape, Option.some.injEq, Prod.mk.injEq] at h1
    obtain ⟨rfl, h2⟩ := h1
    obtain ⟨rfl, rfl⟩ := escapes_inj h2
    exact ⟨rfl, rfl⟩

theorem quote_inj {s t : String} {q r : List Char} (h : quote s ++ q = quote t ++ r) :
    s = t ∧ q = r := by
  simp only [quote, List.cons_append, List.append_assoc, List.nil_append, List.cons.injEq,
    true_and] at h
  obtain ⟨h1, rfl⟩ := escapes_inj h
  exact ⟨String.toList_inj.mp h1, rfl⟩

/-- What the first character of a text says about the value. -/
def kindOf (c : Char) : ℕ :=
  if c = 'n' then 0 else if c = 't' then 1 else if c = 'f' then 2 else if c = '"' then 3
  else if c = '[' then 4 else if c = '{' then 5 else if c = ']' then 7 else 6

def kind : Json → ℕ
  | null => 0
  | bool true => 1
  | bool false => 2
  | str _ => 3
  | arr _ => 4
  | obj _ => 5
  | num _ => 6

theorem kindOf_digit {c : Char} (h : c.isDigit = true) : kindOf c = 6 := by
  unfold kindOf
  split_ifs <;> first | rfl | (subst_vars; exact absurd h (by decide))

theorem render_head (j : Json) : ∃ c cs, render j = c :: cs ∧ kindOf c = kind j := by
  cases j with
  | null => exact ⟨_, _, rfl, rfl⟩
  | bool b => cases b <;> exact ⟨_, _, rfl, rfl⟩
  | num n =>
    obtain ⟨c, cs, h, hc⟩ := Text.exists_cons_repr n
    exact ⟨c, cs, h, kindOf_digit hc⟩
  | str s => exact ⟨_, _, rfl, rfl⟩
  | arr xs => cases xs <;> exact ⟨_, _, rfl, rfl⟩
  | obj kvs => rcases kvs with _ | ⟨⟨k, v⟩, kvs⟩ <;> exact ⟨_, _, rfl, rfl⟩

/-- No value starts with the bracket that closes an array. -/
theorem kind_ne_close (j : Json) : kindOf ']' ≠ kind j := by
  cases j with
  | bool b => cases b <;> decide
  | _ => simp [kind, kindOf]

theorem kind_eq {i j : Json} {r s : List Char} (h : render i ++ r = render j ++ s) :
    kind i = kind j := by
  obtain ⟨c, cs, hi, hc⟩ := render_head i
  obtain ⟨d, ds, hj, hd⟩ := render_head j
  rw [hi, hj, List.cons_append, List.cons_append, List.cons.injEq] at h
  rw [← hc, ← hd, h.1]

theorem stops_elems (xs : List Json) (r : List Char) :
    Text.Stops Char.isDigit (renderElems xs ++ r) := by
  cases xs <;> exact Text.stops_cons rfl

theorem stops_members (kvs : List (String × Json)) (r : List Char) :
    Text.Stops Char.isDigit (renderMembers kvs ++ r) := by
  rcases kvs with _ | ⟨⟨k, v⟩, kvs⟩ <;> exact Text.stops_cons rfl

mutual

/-- **A value is read apart from what follows it**, which is no digit. -/
theorem render_inj : ∀ (i j : Json) {r s : List Char}, Text.Stops Char.isDigit r →
    Text.Stops Char.isDigit s → render i ++ r = render j ++ s → i = j ∧ r = s
  | null, j, r, s, _, _, h => by
    cases j with
    | null => exact ⟨rfl, List.append_cancel_left h⟩
    | bool b => cases b <;> exact absurd (kind_eq h) (by decide)
    | _ => exact absurd (kind_eq h) (by simp [kind])
  | bool b, j, r, s, _, _, h => by
    cases j with
    | bool c =>
      cases b <;> cases c <;> first
        | exact ⟨rfl, List.append_cancel_left h⟩
        | exact absurd (kind_eq h) (by decide)
    | _ => cases b <;> exact absurd (kind_eq h) (by simp [kind])
  | num m, j, r, s, hr, hs, h => by
    cases j with
    | num n =>
      obtain ⟨rfl, rfl⟩ := Text.repr_append_inj hr hs h
      exact ⟨rfl, rfl⟩
    | bool b => cases b <;> exact absurd (kind_eq h) (by simp [kind])
    | _ => exact absurd (kind_eq h) (by simp [kind])
  | str t, j, r, s, _, _, h => by
    cases j with
    | str u =>
      obtain ⟨rfl, rfl⟩ := quote_inj h
      exact ⟨rfl, rfl⟩
    | bool b => cases b <;> exact absurd (kind_eq h) (by simp [kind])
    | _ => exact absurd (kind_eq h) (by simp [kind])
  | arr xs, j, r, s, _, _, h => by
    cases j with
    | arr ys =>
      obtain ⟨rfl, rfl⟩ := renderArr_inj xs ys h
      exact ⟨rfl, rfl⟩
    | bool b => cases b <;> exact absurd (kind_eq h) (by simp [kind])
    | _ => exact absurd (kind_eq h) (by simp [kind])
  | obj kvs, j, r, s, _, _, h => by
    cases j with
    | obj lws =>
      obtain ⟨rfl, rfl⟩ := renderObj_inj kvs lws h
      exact ⟨rfl, rfl⟩
    | bool b => cases b <;> exact absurd (kind_eq h) (by simp [kind])
    | _ => exact absurd (kind_eq h) (by simp [kind])

theorem renderArr_inj : ∀ (xs ys : List Json) {r s : List Char},
    render (arr xs) ++ r = render (arr ys) ++ s → xs = ys ∧ r = s
  | [], [], r, s, h => ⟨rfl, List.append_cancel_left h⟩
  | [], y :: ys, r, s, h => by
    obtain ⟨c, cs, hy, hc⟩ := render_head y
    simp only [render, hy, List.cons_append, List.nil_append, List.cons.injEq, true_and] at h
    exact absurd (h.1 ▸ hc) (kind_ne_close y)
  | x :: xs, [], r, s, h => by
    obtain ⟨c, cs, hx, hc⟩ := render_head x
    simp only [render, hx, List.cons_append, List.nil_append, List.cons.injEq, true_and] at h
    exact absurd (h.1 ▸ hc) (kind_ne_close x)
  | x :: xs, y :: ys, r, s, h => by
    simp only [render, List.cons_append, List.append_assoc, List.cons.injEq, true_and] at h
    obtain ⟨rfl, h'⟩ := render_inj x y (stops_elems xs r) (stops_elems ys s) h
    obtain ⟨rfl, rfl⟩ := renderElems_inj xs ys h'
    exact ⟨rfl, rfl⟩

theorem renderElems_inj : ∀ (xs ys : List Json) {r s : List Char},
    renderElems xs ++ r = renderElems ys ++ s → xs = ys ∧ r = s
  | [], [], r, s, h => ⟨rfl, List.append_cancel_left h⟩
  | [], y :: ys, r, s, h => by simp [renderElems] at h
  | x :: xs, [], r, s, h => by simp [renderElems] at h
  | x :: xs, y :: ys, r, s, h => by
    simp only [renderElems, List.cons_append, List.append_assoc, List.cons.injEq, true_and] at h
    obtain ⟨rfl, h'⟩ := render_inj x y (stops_elems xs r) (stops_elems ys s) h
    obtain ⟨rfl, rfl⟩ := renderElems_inj xs ys h'
    exact ⟨rfl, rfl⟩

theorem renderObj_inj : ∀ (xs ys : List (String × Json)) {r s : List Char},
    render (obj xs) ++ r = render (obj ys) ++ s → xs = ys ∧ r = s
  | [], [], r, s, h => ⟨rfl, List.append_cancel_left h⟩
  | [], (k, v) :: ys, r, s, h => by simp [render, quote] at h
  | (k, v) :: xs, [], r, s, h => by simp [render, quote] at h
  | (k, v) :: xs, (l, w) :: ys, r, s, h => by
    simp only [render, List.cons_append, List.append_assoc, List.cons.injEq, true_and] at h
    obtain ⟨rfl, h₁⟩ := quote_inj h
    obtain ⟨rfl, h₂⟩ := render_inj v w (stops_members xs r) (stops_members ys s)
      (List.cons.inj h₁).2
    obtain ⟨rfl, rfl⟩ := renderMembers_inj xs ys h₂
    exact ⟨rfl, rfl⟩

theorem renderMembers_inj : ∀ (xs ys : List (String × Json)) {r s : List Char},
    renderMembers xs ++ r = renderMembers ys ++ s → xs = ys ∧ r = s
  | [], [], r, s, h => ⟨rfl, List.append_cancel_left h⟩
  | [], (k, v) :: ys, r, s, h => by simp [renderMembers] at h
  | (k, v) :: xs, [], r, s, h => by simp [renderMembers] at h
  | (k, v) :: xs, (l, w) :: ys, r, s, h => by
    simp only [renderMembers, List.cons_append, List.append_assoc, List.cons.injEq,
      true_and] at h
    obtain ⟨rfl, h₁⟩ := quote_inj h
    obtain ⟨rfl, h₂⟩ := render_inj v w (stops_members xs r) (stops_members ys s)
      (List.cons.inj h₁).2
    obtain ⟨rfl, rfl⟩ := renderMembers_inj xs ys h₂
    exact ⟨rfl, rfl⟩

end

/-! ## No raw newline -/

theorem not_newline {cs : List Char} (hcs : cs.all (·.toNat != 10) = true) {d : Char}
    (h : d ∈ cs) : d.toNat ≠ 10 := by
  simpa using List.all_eq_true.mp hcs d h

theorem newline_escape {c d : Char} (h : d ∈ escape c) : d.toNat ≠ 10 := by
  have hshort : ∀ e ∈ shortEscapes, e.2.toNat ≠ 10 := by decide
  have hdigit : ∀ n < 16, (Hex.digit n).toNat ≠ 10 := by decide
  rcases escape_cases c with ⟨e, hmem, he⟩ | ⟨hlt, he⟩ | ⟨hle, -, -, he⟩
  · simp only [he, List.mem_cons, List.not_mem_nil, or_false] at h
    rcases h with rfl | rfl
    · decide
    · exact hshort _ hmem
  · simp only [he, List.mem_cons, List.not_mem_nil, or_false] at h
    rcases h with rfl | rfl | rfl | rfl | rfl | rfl
    any_goals decide
    · exact hdigit _ (by omega)
    · exact hdigit _ (by omega)
  · rw [he, List.mem_singleton] at h
    subst h
    omega

theorem newline_quote {s : String} {d : Char} (h : d ∈ quote s) : d.toNat ≠ 10 := by
  simp only [quote, List.mem_cons, List.mem_append, List.mem_flatMap, List.not_mem_nil,
    or_false] at h
  rcases h with rfl | ⟨c, -, hc⟩ | rfl
  · decide
  · exact newline_escape hc
  · decide

mutual

theorem newline_render : ∀ (j : Json) {d : Char}, d ∈ render j → d.toNat ≠ 10
  | null, _, h => not_newline (by decide) h
  | bool true, _, h => not_newline (by decide) h
  | bool false, _, h => not_newline (by decide) h
  | num n, d, h => by
    have := Text.isDigit_of_mem_repr h
    rintro e
    rw [show d = Char.ofNat 10 from e ▸ (Char.ofNat_toNat d).symm] at this
    exact absurd this (by decide)
  | str s, d, h => newline_quote h
  | arr [], _, h => not_newline (by decide) h
  | arr (x :: xs), d, h => by
    simp only [render, List.mem_cons, List.mem_append] at h
    rcases h with rfl | h | h
    · decide
    · exact newline_render x h
    · exact newline_elems xs h
  | obj [], _, h => not_newline (by decide) h
  | obj ((k, v) :: kvs), d, h => by
    simp only [render, List.mem_cons, List.mem_append] at h
    rcases h with rfl | h | rfl | h | h
    · decide
    · exact newline_quote h
    · decide
    · exact newline_render v h
    · exact newline_members kvs h

theorem newline_elems : ∀ (xs : List Json) {d : Char}, d ∈ renderElems xs → d.toNat ≠ 10
  | [], _, h => not_newline (by decide) h
  | x :: xs, d, h => by
    simp only [renderElems, List.mem_cons, List.mem_append] at h
    rcases h with rfl | h | h
    · decide
    · exact newline_render x h
    · exact newline_elems xs h

theorem newline_members : ∀ (kvs : List (String × Json)) {d : Char}, d ∈ renderMembers kvs →
    d.toNat ≠ 10
  | [], _, h => not_newline (by decide) h
  | (k, v) :: kvs, d, h => by
    simp only [renderMembers, List.mem_cons, List.mem_append] at h
    rcases h with rfl | h | rfl | h | h
    · decide
    · exact newline_quote h
    · decide
    · exact newline_render v h
    · exact newline_members kvs h

end

/-! ## The compact text as a library -/

/-- The bytes of a value. -/
def renderBytes (j : Json) : List UInt8 := Text.utf8 (render j)

theorem renderBytes_injective : Function.Injective renderBytes := fun i j h => by
  have h' := Text.utf8_injective h
  exact (render_inj i j (Text.stops_nil _) (Text.stops_nil _) (congrArg (· ++ []) h')).1

open Classical in
/-- **The compact text**, read back by inverting `renderBytes`. -/
noncomputable def compact : SerdeJson where
  toVec := renderBytes
  fromSlice b := if h : ∃ j, j.fits 127 = true ∧ renderBytes j = b then some h.choose else none
  fromSlice_toVec j hj := by
    have h : ∃ i : Json, i.fits 127 = true ∧ renderBytes i = renderBytes j := ⟨j, hj, rfl⟩
    rw [dif_pos h, renderBytes_injective h.choose_spec.2]
  newline_notMem j h := by
    obtain ⟨c, hc, he⟩ := Text.mem_utf8 (by decide) h
    exact newline_render j hc he
  toVec_ne_nil j h := by
    obtain ⟨c, cs, hj, -⟩ := render_head j
    rw [renderBytes, Text.utf8, hj, List.flatMap_cons] at h
    exact String.utf8EncodeChar_ne_nil (List.append_eq_nil_iff.mp h).1

/-- **An object's text is no value when it is cut short.** -/
theorem fromSlice_cut {kvs : List (String × Json)} {data : List UInt8}
    (h : data <+: renderBytes (obj kvs)) (hne : data ≠ renderBytes (obj kvs)) :
    compact.fromSlice data = none := by
  refine dif_neg ?_
  rintro ⟨j, -, rfl⟩
  obtain ⟨q, hq⟩ := h
  obtain ⟨es, hes, -⟩ := Text.utf8_prefix hq
  have htext : render (obj kvs) ++ [] = render j ++ es := by rw [List.append_nil, hes]
  cases j with
  | obj lws =>
    obtain ⟨rfl, -⟩ := renderObj_inj kvs lws htext
    exact hne rfl
  | bool b => cases b <;> exact absurd (kind_eq htext) (by simp [kind])
  | _ => exact absurd (kind_eq htext) (by simp [kind])

end Json
