import Eqasm.Shell

/-!
# Workspaces

A workspace is a directory with files as a plain value, in which commands can be carried out. Paths
lead through directories to places: `Workspace.walk` follows a path part by part and fails where the
next part would not start from a directory.

Above the workspace there are directories without end, and none of them is known to hold anything.
-/

namespace Eqasm

/-- Where a file or a directory is: the names that lead there from the directory of the workspace,
the last one first. Other places begin with `..` for each step above that directory, or with `/`. -/
abbrev Place := List String

namespace Place

/-- The directory around a place. There is none around the root. -/
def parent : Place → Place
  | ["/"] => ["/"]
  | ".." :: place => ".." :: ".." :: place
  | _ :: place => place
  | [] => [".."]

/-- The directories in the root directory that every system has. -/
def systemDirectories : List String :=
  ["bin", "dev", "etc", "home", "lib", "opt", "proc", "root", "run", "sbin", "sys", "tmp", "usr",
    "var"]

/-- Whether there is a directory at a place whatever files there are. -/
def isStanding (place : Place) : Bool :=
  place.all (fun name => name = ".." || name = "/") ||
    systemDirectories.any fun name => place = [name, "/"]

/-- The file that is always empty. -/
def nullDevice : Place :=
  ["null", "dev", "/"]

end Place

/-- Files by their places, and the lines that were said. -/
structure Workspace where
  files : List (Place × ByteArray) := []
  output : Array String := #[]
  errors : Array String := #[]

namespace Workspace

/-! ## Paths -/

/-- The parts of a path. -/
def parts (path : String) : List String :=
  (path.splitOn "/").filter (· ≠ "")

/-- The number of bytes that is too large for a part of a path. -/
def partLimit : Nat := 256

/-- The number of bytes that is too large for a path. -/
def pathLimit : Nat := 4096

/-- The contents of the file at a place. -/
def contents? (w : Workspace) (place : Place) : Option ByteArray :=
  if place = Place.nullDevice then some .empty else w.files.lookup place

/-- Whether there is a directory at a place. -/
def isDirectory (w : Workspace) (place : Place) : Bool :=
  place.isStanding || w.files.any fun (file, _) => place.isSuffixOf file && place ≠ file

/-- Follows the parts of a path from a place on. The place that is reached may be empty. -/
def walk (w : Workspace) (place : Place) : List String → Except FileError Place
  | [] => .ok place
  | part :: rest =>
    if !w.isDirectory place then
      .error (if (w.contents? place).isSome then .notDirectory else .notFound)
    else if part = "." then w.walk place rest
    else if part = ".." then w.walk place.parent rest
    else if partLimit ≤ part.utf8ByteSize then .error .nameTooLong
    else w.walk (part :: place) rest

/-- Follows parts of a path from where the path starts. -/
def follow (w : Workspace) (path : String) (parts : List String) : Except FileError Place :=
  if path.contains '\x00' then .error .nulInName
  else if path.isEmpty then .error .notFound
  else if pathLimit ≤ path.utf8ByteSize then .error .nameTooLong
  else w.walk (if path.startsWith "/" then ["/"] else []) parts

/-! ## Files -/

/-- The contents of a file. -/
def read (w : Workspace) (path : String) : Except FileError ByteArray := do
  let place ← w.follow path (parts path)
  if w.isDirectory place then throw .isDirectory
  match w.contents? place with
  | some contents => if path.endsWith "/" then throw .notDirectory else return contents
  | none => throw .notFound

/-- The workspace with a file at a place. -/
def put (w : Workspace) (place : Place) (contents : ByteArray) : Workspace :=
  { w with files := (place, contents) :: w.files.filter (·.1 ≠ place) }

/-- Makes a file or replaces its contents. No directory is made for it. A path with a slash at its
end can only mean a directory, whatever its last part is. -/
def write (w : Workspace) (path text : String) : Except FileError Workspace := do
  let parts := parts path
  let place ← w.follow path (if path.endsWith "/" then parts.dropLast ++ ["."] else parts)
  if w.isDirectory place then throw .isDirectory
  return w.put place text.toUTF8

/-- A workspace with files of given names, the last of each name. -/
def ofFiles (files : List (String × ByteArray)) : Workspace :=
  files.foldl (fun w (name, contents) => w.put (parts name).reverse contents) {}

instance : Shell (StateM Workspace) where
  read path := do return (← get).read path
  write path text := do
    match (← get).write path text with
    | .ok w =>
      set w
      return .ok ()
    | .error e => return .error e
  say text := modify fun w => { w with output := w.output ++ (text.splitOn "\n").toArray }
  complain text := modify fun w => { w with errors := w.errors ++ (text.splitOn "\n").toArray }

end Workspace

end Eqasm
