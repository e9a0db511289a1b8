import Eqasm.Toml.Scalar

/-!
# Documents

A document consists of lines: entries, headers of tables and headers of array elements. `readLines`
reads them, and `Document.ofLines?` puts the entries into the tables that the headers before them
open.
-/

namespace Eqasm.Toml

/-! ## Keys and values -/

/-- The number of nested brackets and braces, and of keys on a path, that is too large. -/
def depthLimit : Nat := 80

/-- Reads one key. -/
def readKey : Reader String :=
  readLineString <|> do
    let text ← Reader.row fun c => c.isAlphanum || c = '_' || c = '-'
    if text.isEmpty then failure else return String.ofList text

/-- Reads keys with points between them: the keys in front of the last one, and the last one. -/
def readPath : Reader (List String × String) := do
  let keys ← Reader.separated (readBlanks *> readKey <* readBlanks) "."
  match keys.reverse with
  | last :: before => if keys.length < depthLimit then return (before.reverse, last) else failure
  | [] => failure

/-- Reads a comment. -/
def readComment : Reader Unit := do
  Reader.word "#"
  let _ ← Reader.row isText

/-- Reads blanks, comments and line ends. -/
def readGap : Reader Unit := do
  let blank := Reader.word " " <|> Reader.word "\t"
  let _ ← Reader.many (blank <|> readNewline <|> readComment)

/-- Reads an entry: a path of keys and a value. -/
def readEntry (readValue : Reader Value) : Reader ((List String × String) × Value) := do
  let path ← readPath
  Reader.word "="
  readBlanks
  return (path, ← readValue)

/-- Reads an array, whose items may stand on lines of their own. -/
def readArray (readValue : Reader Value) : Reader Value := do
  Reader.word "["
  let items ← Reader.separated (readGap *> readValue <* readGap) ","
  unless items.isEmpty do
    Reader.word "," <|> pure ()
  readGap
  Reader.word "]"
  return .array false items

/-- Reads a table in braces. -/
def readInlineTable (readValue : Reader Value) : Reader Value := do
  Reader.word "\x7b"
  let entries ← Reader.separated (readEntry readValue <* readBlanks) ","
  readBlanks
  Reader.word "\x7d"
  let insertEntry (t : Table Value) (entry : (List String × String) × Value) :=
    t.insertAt entry.1.1 entry.1.2 entry.2
  .table <$> StateT.lift (entries.foldlM insertEntry ⟨.inline, []⟩)

/-- Reads a value with at most `depth` arrays and tables around one another. -/
def readValue : Nat → Reader Value
  | 0 => .string <$> readString <|> readScalar
  | depth + 1 =>
    .string <$> readString <|> readScalar <|> readArray (readValue depth) <|>
      readInlineTable (readValue depth)

/-! ## Lines -/

/-- What a line of a document says. -/
inductive Line where
  | nothing
  | entry (path : List String) (key : String) (v : Value)
  /-- The entries that follow belong to this table. -/
  | header (path : List String) (key : String)
  /-- The entries that follow belong to a new table at the end of this array. -/
  | element (path : List String) (key : String)

/-- Reads what a line says. -/
def readContent : Reader Line :=
  let headed (opening closing : String) (line : List String → String → Line) : Reader Line := do
    Reader.word opening
    let (path, key) ← readPath
    Reader.word closing
    return line path key
  headed "[[" "]]" .element <|> headed "[" "]" .header <|>
    (do
      let ((path, key), v) ← readEntry (readValue (depthLimit - 1))
      return .entry path key v) <|>
    pure .nothing

/-- Reads a line with its end. -/
def readLine : Reader Line := do
  Reader.unended
  readBlanks
  let line ← readContent
  readBlanks
  readComment <|> pure ()
  readNewline <|> Reader.ended
  return line

/-- Reads all lines of a text, which may begin with a byte order mark. -/
def readLines : Reader (List Line) := do
  Reader.word "\ufeff" <|> pure ()
  let lines ← Reader.many readLine
  Reader.ended
  return lines

/-! ## Documents -/

/-- A document as far as it is read: its tables, and the path to the table that takes entries. -/
structure Document where
  root : Table Value := ⟨.header, []⟩
  current : List String := []

namespace Document

/-- Adds a line. -/
def addLine (d : Document) : Line → Option Document
  | .nothing => some d
  | .entry path key v => do
    return { d with root := ← d.root.modify false (·.insertAt path key v) d.current }
  | .header path key => do
    return ⟨← d.root.modify false (·.openTable key) path, path ++ [key]⟩
  | .element path key => do
    return ⟨← d.root.modify false (·.openElement key) path, path ++ [key]⟩

/-- Puts lines together. -/
def ofLines? (lines : List Line) : Option Document :=
  lines.foldlM addLine {}

/-- Reads the tables of a document. -/
def read? (text : String) : Option (Table Value) := do
  let (lines, _) ← readLines.run text.toList
  return (← ofLines? lines).root

end Document

end Eqasm.Toml
