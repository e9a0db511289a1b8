import Eqasm.Assembly
import Eqasm.Failure
import Eqasm.Instruction.Listing
import Eqasm.Log

/-!
# Programs and images in files

Programs are read from text files and written back as listings. A memory image is a file as it is:
its byte `i` belongs at address `i`.
-/

namespace Eqasm

/-- Work in surroundings that can fail. -/
abbrev Task (m : Type → Type) := ExceptT Failure m

variable {m : Type → Type} [Monad m] [Shell m]

/-- The program in a file, with its diagnostics. -/
def readSource (name : String) : Task m Assembly := do
  match ← Shell.readText (m := m) name with
  | .error e => throw (.unreadableSource name e)
  | .ok text =>
    match assemble text with
    | .error e => throw (.illegalSource name e)
    | .ok a => return a

/-- The instructions of the program in a file, which must not have any problems. -/
def loadProgram (name : String) : Task m (List Instruction) := do
  let a ← readSource name
  if a.succeeded then return a.instructions.toList
  else throw (.malformedSource name a.diagnostics.toList)

/-- The bytes of an image. -/
def readImage (name : String) : Task m (List UInt8) := do
  match ← Shell.read (m := m) name with
  | .error .isDirectory => throw (.unreadableImage .isDirectory)
  | .error e => throw (.unopenedImage e)
  | .ok bytes => return bytes.toList

/-- Writes the listing of a program. -/
def writeListing (name : String) (program : List Instruction) : Task m Unit := do
  match ← Shell.write (m := m) name (listing program) with
  | .error e => throw (.uncreatedListing e)
  | .ok () => return ()

/-- The event of an image that was read. -/
def imageEvent (image : List UInt8) : Event :=
  ⟨.info, .loader, s!"memory image: {image.length} bytes"⟩

end Eqasm
