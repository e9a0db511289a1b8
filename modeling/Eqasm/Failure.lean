import Eqasm.Diagnostic
import Eqasm.Machine
import Eqasm.Shell
import Eqasm.Text.Align
import Eqasm.Token.Lexer

/-!
# Failures

Why a command came to nothing. A failure has a message and behind it the messages of its causes.
-/

namespace Eqasm

/-- Why a command failed. -/
inductive Failure where
  | unreadableSource (name : String) (cause : FileError)
  | illegalSource (name : String) (cause : LexError)
  /-- A program with problems was to be loaded. -/
  | malformedSource (name : String) (diagnostics : List Diagnostic)
  /-- A program has problems, which were told already. -/
  | checkedSource (name : String) (count : Nat)
  | unreadableSettings (name : String) (cause : FileError)
  | malformedSettings (name : String)
  | unopenedImage (cause : FileError)
  | unreadableImage (cause : FileError)
  | uncreatedListing (cause : FileError)
  | badBackend (message : String)
  | badConfig (cause : Fault)
  | oversizedImage (cause : Fault)
  | refusedProgram (cause : LoadError)
  | unloadableSource (name : String) (cause : LoadError)
  | failedExecution (cause : ExecError)
  | failedShot (shot : Nat) (cause : ExecError)
  | dumpOutside (cause : Fault)
  deriving DecidableEq, Repr

/-- The messages of an execution error: its own, and that of the fault behind it. -/
def ExecError.chain (e : ExecError) : List String :=
  match e with
  | .fault _ _ cause => [e.message, cause.message]
  | _ => [e.message]

namespace Failure

/-- The message of a failure and the messages of its causes. -/
def chain : Failure → List String
  | unreadableSource name cause => [s!"Failed to read eQASM file {name}", cause.message]
  | illegalSource name cause => [s!"Failed to lex {name}", cause.message]
  | malformedSource name diagnostics =>
    let summary := s!"{diagnostics.length} syntax error(s) in {name}:"
    ["\n".intercalate (summary :: diagnostics.map Diagnostic.text)]
  | checkedSource name count => [s!"{count} syntax error(s) in {name}"]
  | unreadableSettings name cause => [s!"Failed to read config file {name}", cause.message]
  | malformedSettings name => [s!"Failed to parse config file {name}"]
  | unopenedImage cause => ["Failed to open memory image", cause.message]
  | unreadableImage cause => [cause.message]
  | uncreatedListing cause => ["Failed to create listing file", cause.message]
  | badBackend message => [message]
  | badConfig cause => [cause.message]
  | oversizedImage cause => ["Memory image does not fit in data memory", cause.message]
  | refusedProgram cause => ["Program rejected by the loader", cause.message]
  | unloadableSource name cause => [s!"{name} does not load", cause.message]
  | failedExecution cause => "Execution failed" :: cause.chain
  | failedShot shot cause => s!"Shot {shot} failed" :: cause.chain
  | dumpOutside cause => ["Memory dump range is out of bounds", cause.message]

/-- All messages of a failure on one line. -/
def message (f : Failure) : String :=
  ": ".intercalate f.chain

/-- The lines that tell of the causes. Several are numbered. -/
def causeLines : List String → List String
  | [] => []
  | [cause] => ["", "Caused by:", "    " ++ cause]
  | causes =>
    ["", "Caused by:"] ++ causes.mapIdx fun i cause => s!"{alignRight 5 (toString i)}: {cause}"

/-- The lines that tell of a failure. -/
def report (f : Failure) : List String :=
  match f.chain with
  | [] => []
  | message :: causes => ("Error: " ++ message).splitOn "\n" ++ causeLines causes

end Failure

end Eqasm
