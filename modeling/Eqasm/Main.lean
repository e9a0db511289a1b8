import Eqasm.Command.Execution

/-!
# The program

Carries out the command that the words behind the program's name make.
-/

namespace Eqasm

/-- The number of an error, which some systems give with a minus. -/
def errorNumber (code : UInt32) : UInt32 :=
  if code < 0x80000000 then code else 0 - code

/-- The reason that the system gives for an error. -/
def FileError.ofSystem (e : IO.Error) : FileError :=
  match e with
  | .noFileOrDirectory .. => .notFound
  | .permissionDenied .. => .other "Permission denied (os error 13)"
  | .inappropriateType _ code _ => if errorNumber code = 21 then .isDirectory else .notDirectory
  | .invalidArgument _ code _ =>
    if errorNumber code = 36 then .nameTooLong else .other (toString e)
  | e => .other (toString e)

/-- The result of an action on a file. -/
def fileResult {α : Type} (action : IO α) : IO (Except FileError α) := do
  try return .ok (← action)
  catch e => return .error (.ofSystem e)

instance : Shell IO where
  read name := fileResult (IO.FS.readBinFile name)
  write name text := fileResult (IO.FS.writeFile name text)
  say line := do (← IO.getStdout).putStrLn line
  complain line := do (← IO.getStderr).putStrLn line

end Eqasm

/-- The program. -/
def main (words : List String) : IO UInt32 :=
  Eqasm.executeWords words
