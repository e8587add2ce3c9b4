import Freighter.Lib.Json

/-!
# The pieces of a JSON text

A serializer hands its text to a writer in pieces: each bracket, comma, colon, quote and escape is
one, and so is each stretch of plain characters.

* `Json.pieces`; **`Json.flatten_pieces`**: together they are the text.
* **`WritesPieces`**: what is relied on; `writesPieces_compact`: the compact text has it.
-/

namespace Json

/-! ## The pieces -/

/-- A stretch of plain characters, if there is one. -/
def stretch (run : List Char) : List (List Char) := if run = [] then [] else [run]

/-- The pieces of the inside of a string, after the plain characters `run`. -/
def stringPieces (run : List Char) : List Char → List (List Char)
  | [] => stretch run
  | c :: cs =>
    if escape c = [c] then stringPieces (run ++ [c]) cs
    else stretch run ++ escape c :: stringPieces [] cs

def quotePieces (s : String) : List (List Char) := ['"'] :: (stringPieces [] s.toList ++ [['"']])

mutual

def pieces : Json → List (List Char)
  | null => [['n', 'u', 'l', 'l']]
  | bool true => [['t', 'r', 'u', 'e']]
  | bool false => [['f', 'a', 'l', 's', 'e']]
  | num n => [n.repr.toList]
  | str s => quotePieces s
  | arr [] => [['['], [']']]
  | arr (x :: xs) => ['['] :: (pieces x ++ piecesElems xs)
  | obj [] => [['{'], ['}']]
  | obj ((k, v) :: kvs) => ['{'] :: (quotePieces k ++ [':'] :: (pieces v ++ piecesMembers kvs))

def piecesElems : List Json → List (List Char)
  | [] => [[']']]
  | x :: xs => [','] :: (pieces x ++ piecesElems xs)

def piecesMembers : List (String × Json) → List (List Char)
  | [] => [['}']]
  | (k, v) :: kvs => [','] :: (quotePieces k ++ [':'] :: (pieces v ++ piecesMembers kvs))

end

example : pieces (obj [("a\n", num 12)]) =
    ["\x7b", "\"", "a", "\\n", "\"", ":", "12", "\x7d"].map String.toList := by decide

/-! ## The text -/

theorem flatten_stretch (run : List Char) : (stretch run).flatten = run := by
  unfold stretch
  split_ifs with h
  · exact h.symm
  · exact List.append_nil run

theorem flatten_stringPieces (run cs : List Char) :
    (stringPieces run cs).flatten = run ++ cs.flatMap escape := by
  induction cs generalizing run with
  | nil => rw [stringPieces, flatten_stretch, List.flatMap_nil, List.append_nil]
  | cons c cs ih =>
    rw [stringPieces, List.flatMap_cons]
    split_ifs with h
    · rw [ih, h, List.append_assoc]
    · rw [List.flatten_append, flatten_stretch, List.flatten_cons, ih, List.nil_append]

theorem flatten_quotePieces (s : String) : (quotePieces s).flatten = quote s := by
  rw [quotePieces, List.flatten_cons, List.flatten_append, flatten_stringPieces]
  rfl

mutual

/-- **The pieces of a value are its text.** -/
theorem flatten_pieces : ∀ j : Json, (pieces j).flatten = render j
  | null => rfl
  | bool true => rfl
  | bool false => rfl
  | num n => List.append_nil _
  | str s => flatten_quotePieces s
  | arr [] => rfl
  | arr (x :: xs) => by
    rw [pieces, List.flatten_cons, List.flatten_append, flatten_pieces x, flatten_elems xs]
    rfl
  | obj [] => rfl
  | obj ((k, v) :: kvs) => by
    rw [pieces, List.flatten_cons, List.flatten_append, flatten_quotePieces, List.flatten_cons,
      List.flatten_append, flatten_pieces v, flatten_members kvs]
    rfl

theorem flatten_elems : ∀ xs : List Json, (piecesElems xs).flatten = renderElems xs
  | [] => rfl
  | x :: xs => by
    rw [piecesElems, List.flatten_cons, List.flatten_append, flatten_pieces x, flatten_elems xs]
    rfl

theorem flatten_members : ∀ kvs : List (String × Json),
    (piecesMembers kvs).flatten = renderMembers kvs
  | [] => rfl
  | (k, v) :: kvs => by
    rw [piecesMembers, List.flatten_cons, List.flatten_append, flatten_quotePieces,
      List.flatten_cons, List.flatten_append, flatten_pieces v, flatten_members kvs]
    rfl

end

theorem getLast?_members : ∀ kvs : List (String × Json),
    (piecesMembers kvs).getLast? = some ['}']
  | [] => rfl
  | (k, v) :: kvs => by
    rw [piecesMembers, List.getLast?_cons, List.getLast?_append, List.getLast?_cons,
      List.getLast?_append, getLast?_members kvs]
    rfl

/-- The bracket that closes an object is its last piece. -/
theorem getLast?_pieces : ∀ kvs : List (String × Json), (pieces (obj kvs)).getLast? = some ['}']
  | [] => rfl
  | (k, v) :: kvs => by
    rw [pieces, List.getLast?_cons, List.getLast?_append, List.getLast?_cons, List.getLast?_append,
      getLast?_members kvs]
    rfl

end Json

/-- **A serializer in pieces**: `pieces j` is what `serde_json::to_writer` writes, one piece after
the other. The last piece of an object is the bracket that closes it. -/
structure WritesPieces (L : SerdeJson) (pieces : Json → List (List UInt8)) : Prop where
  flatten : ∀ j, (pieces j).flatten = L.toVec j
  closes : ∀ kvs, (pieces (.obj kvs)).getLast? = some [125]

/-- The pieces of the compact text. -/
def Json.pieceBytes (j : Json) : List (List UInt8) := (Json.pieces j).map Text.utf8

theorem flatten_map_utf8 (ls : List (List Char)) :
    (ls.map Text.utf8).flatten = Text.utf8 ls.flatten := by
  induction ls with
  | nil => rfl
  | cons l ls ih =>
    rw [List.map_cons, List.flatten_cons, ih, List.flatten_cons, Text.utf8, Text.utf8, Text.utf8,
      List.flatMap_append]

theorem writesPieces_compact : WritesPieces Json.compact Json.pieceBytes where
  flatten j := by
    change ((Json.pieces j).map Text.utf8).flatten = Text.utf8 (Json.render j)
    rw [← Json.flatten_pieces j, flatten_map_utf8]
  closes kvs := by
    rw [Json.pieceBytes, List.getLast?_map, Json.getLast?_pieces]
    rfl
