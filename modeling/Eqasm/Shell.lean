/-!
# The surroundings of a command

Commands read and write files by name and say things to the user. `Shell` is what they ask of the
place where they are run.
-/

namespace Eqasm

/-- Why a file cannot be used. -/
inductive FileError where
  | notFound
  | isDirectory
  | notDirectory
  | nameTooLong
  /-- Names do not contain the character with the code 0. -/
  | nulInName
  | notText
  /-- Another reason that the system gives. -/
  | other (message : String)
  deriving DecidableEq, Repr

/-- The wording of an error. -/
def FileError.message : FileError → String
  | notFound => "No such file or directory (os error 2)"
  | isDirectory => "Is a directory (os error 21)"
  | notDirectory => "Not a directory (os error 20)"
  | nameTooLong => "File name too long (os error 36)"
  | nulInName => "file name contained an unexpected NUL byte"
  | notText => "stream did not contain valid UTF-8"
  | other message => message

/-- What commands ask of their surroundings. -/
class Shell (m : Type → Type) where
  /-- The contents of a file. -/
  read : String → m (Except FileError ByteArray)
  /-- Makes a file or replaces its contents. -/
  write : String → String → m (Except FileError Unit)
  /-- Text for the output, which ends with a line end. -/
  say : String → m Unit
  /-- Text for the error output, which ends with a line end. -/
  complain : String → m Unit

/-- The text in a file. -/
def Shell.readText {m : Type → Type} [Monad m] [Shell m] (name : String) :
    m (Except FileError String) := do
  return match ← Shell.read name with
    | .error e => .error e
    | .ok bytes =>
      match String.fromUTF8? bytes with
      | some text => .ok text
      | none => .error .notText

end Eqasm
