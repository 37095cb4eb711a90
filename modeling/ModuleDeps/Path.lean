import ModuleDeps.Text.Utf8

/-!
# Paths

A path is a string of bytes. It opens with a slash, or with a dot that stands alone, or with
neither; what follows is cut at slashes into names, and empty pieces and further dots between
slashes mean nothing. Two paths are the same place by name if they open alike and have the same
names, that is, if they have the same tidy form. Nothing here looks at files.
-/

namespace ModuleDeps

/-- A path. -/
structure Path where
  /-- The bytes of the path. -/
  bytes : List UInt8
  deriving DecidableEq, Repr, Inhabited

/-- A piece of a path between slashes. -/
abbrev Name := List UInt8

namespace Path

/-- The byte `/`. -/
def slash : UInt8 := 0x2f

/-- The byte `.`. -/
def dot : UInt8 := 0x2e

/-- The path that a text spells. -/
def ofString (s : String) : Path := ⟨Utf8.encode s⟩

/-- The text of a path, if its bytes are text. -/
def text? (p : Path) : Option String := Utf8.decode? p.bytes

/-- A path as messages show it. -/
def display (p : Path) : String := Utf8.display p.bytes

@[simp] theorem text?_ofString (s : String) : (ofString s).text? = some s := by
  simp [ofString, text?]

/-! ### Parts of a path -/

/-- What a path opens with. -/
inductive Anchor where
  /-- Nothing of note: the path starts with a name, or is empty. -/
  | none
  /-- A dot that stands alone. -/
  | here
  /-- A slash. -/
  | root
  deriving DecidableEq, Repr

/-- How an anchor is spelled. -/
def Anchor.bytes : Anchor → List UInt8
  | none => []
  | here => [dot]
  | root => [slash]

/-- What the path opens with. -/
def anchor (p : Path) : Anchor :=
  match p.bytes with
  | [] => .none
  | b :: rest =>
    if b = slash then .root
    else if b = dot ∧ rest.head?.all (· == slash) then .here
    else .none

/-- The path starts at the root. -/
def isAbsolute (p : Path) : Bool := p.anchor == .root

/-- What follows the anchor, cut at slashes. -/
def pieces (p : Path) : List Name := (p.bytes.drop p.anchor.bytes.length).splitOn slash

/-- A piece that names nothing: an empty one or a dot. -/
def isFiller (n : Name) : Bool := n == [] || n == [dot]

/-- The names of the path; `..` counts as a name. -/
def names (p : Path) : List Name := p.pieces.filter (!isFiller ·)

/-- Names with slashes between them. -/
def joinNames (ns : List Name) : List UInt8 := List.intercalate [slash] ns

/-! ### Operations -/

/-- The path with one slash between its names and nothing else. -/
def tidy (p : Path) : Path :=
  match p.anchor with
  | .none => ⟨joinNames p.names⟩
  | .here => ⟨joinNames ([dot] :: p.names)⟩
  | .root => ⟨slash :: joinNames p.names⟩

/-- `rel` seen from the directory `base`; an absolute path stays as it is. -/
def join (base rel : Path) : Path :=
  if rel.isAbsolute then rel
  else if base.bytes.getLast?.all (· == slash) then ⟨base.bytes ++ rel.bytes⟩
  else ⟨base.bytes ++ slash :: rel.bytes⟩

/-- The pieces up to the last one that is a name. -/
def dropFiller (ns : List Name) : List Name := (ns.reverse.dropWhile isFiller).reverse

/-- The directory part of a path: all in front of the last name, as it is spelled. It is empty for
a path of one name and for a path without names. -/
def dirname (p : Path) : Path :=
  match dropFiller p.pieces with
  | [] => ⟨[]⟩
  | n :: ns => ⟨p.anchor.bytes ++ joinNames (dropFiller (n :: ns).dropLast)⟩

end Path

end ModuleDeps
