/-!
# Values of configuration documents

A document is a table of values in the TOML format. A table remembers how it was written, because
that decides what may still be added to it: `Table.modify` walks along a path of keys, and
`Table.insert` adds an entry at its end.
-/

namespace Eqasm.Toml

/-- How a table came to be. -/
inductive Origin where
  /-- It was written in braces and is complete. -/
  | inline
  /-- It has a header of its own, or is the whole document. -/
  | header
  /-- It is named in front of the last key of a header. -/
  | implied
  /-- It is named in front of the last key of an entry. -/
  | dotted
  deriving DecidableEq, Repr

/-- Entries with different keys, in the order in which they were written. -/
structure Table (α : Type) where
  origin : Origin
  entries : List (String × α) := []
  deriving Repr

/-- A value. An array that is `growing` was begun by a header, and more headers can add to it. Dates
and times are all one value, because nothing asks which one they are. -/
inductive Value where
  | string (text : String)
  | integer (n : Int)
  | float (x : Float)
  | boolean (b : Bool)
  | dateTime
  | array (growing : Bool) (items : List Value)
  | table (t : Table Value)

namespace Table

variable {α : Type}

/-- Replaces the value of a key among entries, or adds one at the end. -/
def updateEntries (key : String) (f : Option α → Option α) :
    List (String × α) → Option (List (String × α))
  | [] => (f none).map fun v => [(key, v)]
  | (k, v) :: rest =>
    if k = key then (f (some v)).map fun v => (k, v) :: rest
    else (updateEntries key f rest).map ((k, v) :: ·)

/-- Replaces the value of a key, or adds one. -/
def update (t : Table α) (key : String) (f : Option α → Option α) : Option (Table α) :=
  (updateEntries key f t.entries).map fun entries => { t with entries }

/-- Adds an entry at the end of a path. A table of a dotted key takes entries of dotted keys only,
and no other table does. -/
def insert (path : List String) (key : String) (v : α) (t : Table α) : Option (Table α) :=
  if (t.origin = .dotted) = (path = []) then none
  else t.update key fun
    | none => some v
    | some _ => none

/-- Whether a path may go through a table. Dotted keys lead only through tables that have no header,
and nothing leads through a table in braces. -/
def passes (isDotted : Bool) (t : Table α) : Bool :=
  t.origin ≠ .inline && !(isDotted && t.origin = .header)

/-- Changes the table at the end of a path. Tables on the way that are not there are made, and of a
growing array the last table is meant. -/
def modify (isDotted : Bool) (f : Table Value → Option (Table Value)) :
    List String → Table Value → Option (Table Value)
  | [], t => f t
  | key :: path, t =>
    t.update key fun
      | none => (modify isDotted f path ⟨if isDotted then .dotted else .implied, []⟩).map .table
      | some (.table child) =>
        if child.passes isDotted then (modify isDotted f path child).map .table else none
      | some (.array true items) =>
        match items.reverse with
        | .table last :: before => (modify isDotted f path last).map fun last =>
          .array true (before.reverse ++ [.table last])
        | _ => none
      | some _ => none

/-- Adds an entry with a dotted key. -/
def insertAt (path : List String) (key : String) (v : Value) (t : Table Value) :
    Option (Table Value) :=
  t.modify true (insert path key v) path

/-- Opens the table of a header. -/
def openTable (key : String) (t : Table Value) : Option (Table Value) :=
  t.update key fun
    | none => some (.table ⟨.header, []⟩)
    | some (.table child) =>
      if child.origin = .implied then some (.table { child with origin := .header }) else none
    | some _ => none

/-- Adds a table to a growing array. -/
def openElement (key : String) (t : Table Value) : Option (Table Value) :=
  t.update key fun
    | none => some (.array true [.table ⟨.header, []⟩])
    | some (.array true items) => some (.array true (items ++ [.table ⟨.header, []⟩]))
    | some _ => none

end Table

end Eqasm.Toml
