/-!
# TOML tables

What a TOML document says: a table of items under keys. A table remembers how it came to be,
since that decides what may still be added to it. A header defines a table once; a table that was
only passed through on the way to another one may still get a header of its own; a table made by a
dotted key grows by dotted keys only; and the last table of an array of tables may be added to.
-/

namespace ModuleDeps.Toml

/-- How a table came to be. -/
inductive Origin where
  /-- It has a header, or is the document or an element of an array of tables. -/
  | header
  /-- The header of a table below it passes through it. -/
  | passed
  /-- A dotted key passes through it. -/
  | dotted
  deriving DecidableEq, Repr

/-- What is under a key. Values other than integers and texts are kept as they are written. -/
inductive Item where
  /-- A text. -/
  | string (s : String)
  /-- A whole number. -/
  | integer (n : Int)
  /-- A number with a fraction or an exponent, infinity, or no number. -/
  | float (literal : String)
  /-- A truth value. -/
  | boolean (b : Bool)
  /-- A date, a time or both. -/
  | datetime (literal : String)
  /-- A list of values. -/
  | array (items : List Item)
  /-- A table that is written as one value; nothing can be added to it. -/
  | inlineTable (entries : List (String × Item))
  /-- A table. -/
  | table (origin : Origin) (entries : List (String × Item))
  /-- An array of tables; the last one is the one that can be added to. -/
  | tables (before : List (List (String × Item))) (last : List (String × Item))
  deriving Repr

/-- Items under keys. -/
abbrev Table := List (String × Item)

namespace Table

/-- The table with an item under a key that is there already. -/
def replace (t : Table) (key : String) (item : Item) : Table :=
  t.map fun e => if e.1 = key then (key, item) else e

/-- Changes the table that a path leads to. Tables that are not there are made, with the origin
`via`; a dotted key does not pass through a table with a header. -/
def alter (via : Origin) : (path : List String) → (change : Origin → Table → Option Table) →
    (origin : Origin) → Table → Option Table
  | [], change, origin, t => change origin t
  | key :: path, change, _, t =>
    match t.lookup key with
    | none => do
      let inner ← alter via path change via []
      some (t ++ [(key, .table via inner)])
    | some (.table origin inner) =>
      if via = .dotted ∧ origin = .header then none
      else do
        let inner ← alter via path change origin inner
        some (t.replace key (.table origin inner))
    | some (.tables before last) => do
      let last ← alter via path change .header last
      some (t.replace key (.tables before last))
    | some _ => none

/-- Puts an item under a dotted key. The keys in front of the last one may only pass through tables
that dotted keys made, and the last one must be new. -/
def assign (keys : List String) (item : Item) (origin : Origin) (t : Table) : Option Table :=
  match keys.getLast? with
  | none => none
  | some key =>
    let path := keys.dropLast
    let change (origin : Origin) (t : Table) : Option Table :=
      if decide (origin = .dotted) = path.isEmpty then none
      else if (t.lookup key).isSome then none
      else some (t ++ [(key, item)])
    alter .dotted path change origin t

/-- Gives the table that a path leads to a header, once. -/
def define (keys : List String) (t : Table) : Option Table :=
  match keys.getLast? with
  | none => none
  | some key =>
    let change (_ : Origin) (t : Table) : Option Table :=
      match t.lookup key with
      | none => some (t ++ [(key, .table .header [])])
      | some (.table .passed inner) => some (t.replace key (.table .header inner))
      | some _ => none
    alter .passed keys.dropLast change .header t

/-- Adds an empty table to the array of tables that a path leads to. -/
def append (keys : List String) (t : Table) : Option Table :=
  match keys.getLast? with
  | none => none
  | some key =>
    let change (_ : Origin) (t : Table) : Option Table :=
      match t.lookup key with
      | none => some (t ++ [(key, .tables [] [])])
      | some (.tables before last) => some (t.replace key (.tables (before ++ [last]) []))
      | some _ => none
    alter .passed keys.dropLast change .header t

end Table

/-! ### Statements -/

/-- A line of a document that says something. -/
inductive Statement where
  /-- `key = value`. -/
  | assign (keys : List String) (item : Item)
  /-- `[key]`. -/
  | table (keys : List String)
  /-- `[[key]]`. -/
  | element (keys : List String)
  deriving Repr

/-- The table that statements build up from `t`, when `header` leads to the table that they are in. -/
def Table.build (header : List String) (t : Table) : List Statement → Option Table
  | [] => some t
  | .assign keys item :: rest => do build header (← alter .passed header (assign keys item) .header t) rest
  | .table keys :: rest => do build keys (← t.define keys) rest
  | .element keys :: rest => do build keys (← t.append keys) rest

end ModuleDeps.Toml
