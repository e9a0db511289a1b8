import Eqasm.Command
import Eqasm.Decimal.Reading

/-!
# Reading command lines

A command line is a list of words: the name of a command, the name of a file, and options. An option
has a long name behind two hyphens and may have a letter behind one hyphen; its value follows in the
same word or is the next word. Behind a word of two hyphens only files are named. Every option may
be given once, but `-v` as often as one likes.
-/

namespace Eqasm

/-- Why there is no command to carry out. -/
inductive Refusal where
  /-- The words do not make a command. -/
  | misuse
  /-- The user asks how to use commands. -/
  | help
  deriving DecidableEq, Repr

/-- What the words so far have said. -/
structure Draft where
  source : Option String := none
  listing : Option String := none
  options : MachineOptions := {}
  dump : Option MemoryRange := none
  count : Option Nat := none
  verbosity : Nat := 0

/-- An option with a value. -/
structure Parameter where
  name : String
  letter : Option Char := none
  /-- Notes the value, unless there is one already or it cannot be read. -/
  note : Draft → String → Option Draft

namespace Parameter

/-- Notes a value once. -/
def once {α : Type} (read : String → Option α) (get : Draft → Option α)
    (put : Draft → α → Draft) (d : Draft) (word : String) : Option Draft :=
  if (get d).isSome then none else (read word).map (put d)

/-- The name of a file, which is not empty. -/
def readName (word : String) : Option String :=
  if word.isEmpty then none else some word

/-- A number of 64 bits. -/
def readCount (word : String) : Option Nat :=
  (Text.readUnsigned 10 word.toList).toOption

/-- A range of memory. -/
def readRange (word : String) : Option MemoryRange :=
  (MemoryRange.read word).toOption

/-- The options on the machine. -/
def machine : List Parameter :=
  [⟨"config", some 'c', once readName (·.options.settings) fun d v =>
      { d with options := { d.options with settings := some v } }⟩,
    ⟨"max-cycles", none, once readCount (·.options.maxCycles) fun d v =>
      { d with options := { d.options with maxCycles := some v } }⟩,
    ⟨"qubits", none, once readCount (·.options.qubits) fun d v =>
      { d with options := { d.options with qubits := some v } }⟩,
    ⟨"backend", none, once BackendKind.ofName? (·.options.backend) fun d v =>
      { d with options := { d.options with backend := some v } }⟩,
    ⟨"seed", none, once readCount (·.options.seed) fun d v =>
      { d with options := { d.options with seed := some v } }⟩,
    ⟨"p-one", none, once Decimal.readFloat? (·.options.one) fun d v =>
      { d with options := { d.options with one := some v } }⟩,
    ⟨"mem-image", none, once readName (·.options.image) fun d v =>
      { d with options := { d.options with image := some v } }⟩]

/-- The options of `check`. -/
def check : List Parameter :=
  [⟨"emit", none, once readName (·.listing) fun d v => { d with listing := some v }⟩]

/-- The options of `run`. -/
def run : List Parameter :=
  machine ++ [⟨"dump-mem", none, once readRange (·.dump) fun d v => { d with dump := some v }⟩]

/-- The options of `shots`. -/
def shots : List Parameter :=
  machine ++ [⟨"shots", some 'n', once readCount (·.count) fun d v => { d with count := some v }⟩]

end Parameter

/-! ## Words -/

/-- What kind of word stands on a command line. -/
inductive Word where
  | plain (text : String)
  /-- A long name, with a value if one stands behind an equals sign. -/
  | long (name : String) (value : Option String)
  | letters (cs : List Char)
  /-- Two hyphens, behind which no more options come. -/
  | lastOption
  deriving DecidableEq, Repr

/-- The kind of a word. A single hyphen is a plain word. -/
def Word.ofString (text : String) : Word :=
  match text.toList with
  | ['-', '-'] => .lastOption
  | '-' :: '-' :: rest =>
    let name := String.ofList (rest.takeWhile (· ≠ '='))
    match rest.dropWhile (· ≠ '=') with
    | [] => .long name none
    | _ :: value => .long name (some (String.ofList value))
  | '-' :: c :: rest => .letters (c :: rest)
  | _ => .plain text

namespace Draft

/-- Notes the value of an option. -/
def note (d : Draft) (p : Parameter) (value : String) : Except Refusal Draft :=
  match p.note d value with
  | some d => .ok d
  | none => .error .misuse

/-- Notes the file of the program. -/
def name (d : Draft) (source : String) : Except Refusal Draft :=
  match Parameter.once Parameter.readName (·.source) (fun d v => { d with source := some v }) d
      source with
  | some d => .ok d
  | none => .error .misuse

/-- Notes that the user wants to be told more. -/
def louder (d : Draft) : Draft :=
  { d with verbosity := d.verbosity + 1 }

/-- Notes letters of options. If the last of them awaits its value, gives its option too. -/
def readLetters (ps : List Parameter) (d : Draft) :
    List Char → Except Refusal (Draft × Option Parameter)
  | [] => .ok (d, none)
  | 'v' :: rest => d.louder.readLetters ps rest
  | 'h' :: _ => .error .help
  | c :: rest =>
    match ps.find? (·.letter = some c), rest with
    | none, _ => .error .misuse
    | some p, [] => .ok (d, some p)
    | some p, '=' :: value => do return (← d.note p (String.ofList value), none)
    | some p, value => do return (← d.note p (String.ofList value), none)

/-- Notes a long option. If it awaits its value, gives the option too. -/
def readLong (ps : List Parameter) (d : Draft) (name : String) (value : Option String) :
    Except Refusal (Draft × Option Parameter) :=
  match name, value with
  | "verbose", none => .ok (d.louder, none)
  | "help", none => .error .help
  | _, _ =>
    match ps.find? (·.name = name), value with
    | none, _ => .error .misuse
    | some p, none => .ok (d, some p)
    | some p, some value => do return (← d.note p value, none)

/-- Notes words, the first of which is the value of an option if there is an `awaiting` one. -/
def readWords (ps : List Parameter) (d : Draft) (awaiting : Option Parameter) :
    List String → Except Refusal Draft
  | [] => if awaiting.isSome then .error .misuse else .ok d
  | text :: rest =>
    match Word.ofString text, awaiting with
    | .plain value, some p => do (← d.note p value).readWords ps none rest
    | _, some _ => .error .misuse
    | .plain source, none => do (← d.name source).readWords ps none rest
    | .lastOption, none => rest.foldlM name d
    | .letters cs, none => do
      let (d, awaiting) ← d.readLetters ps cs
      d.readWords ps awaiting rest
    | .long longName value, none => do
      let (d, awaiting) ← d.readLong ps longName value
      d.readWords ps awaiting rest

/-- Whether there is help on what words name: on all commands if there are none, or on one command.
The command `help` is one of them. -/
def hasHelp : List String → Bool
  | [] => true
  | [name] => ["check", "run", "shots", "help"].contains name
  | _ => false

/-- The command that the words behind its name make. -/
def readCommand (d : Draft) (name : String) (words : List String) : Except Refusal Invocation := do
  let read (ps : List Parameter) (command : Draft → String → Command) := do
    let d ← d.readWords ps none words
    match d.source with
    | some source => return ⟨command d source, d.verbosity⟩
    | none => throw .misuse
  match name with
  | "check" => read Parameter.check fun d source => .check source d.listing
  | "run" => read Parameter.run fun d source => .run source d.options d.dump
  | "shots" => read Parameter.shots fun d source => .shots source d.options (d.count.getD 1000)
  | "help" => throw (if hasHelp words then .help else .misuse)
  | _ => throw .misuse

/-- The command that words make, behind words that made a draft. -/
def readInvocation (d : Draft) : List String → Except Refusal Invocation
  | [] => .error .misuse
  | text :: rest =>
    match Word.ofString text with
    | .plain name => d.readCommand name rest
    | .lastOption => .error .misuse
    | .letters cs => do (← d.readLetters [] cs).1.readInvocation rest
    | .long name value => do (← d.readLong [] name value).1.readInvocation rest

end Draft

/-- Reads a command line. -/
def Invocation.ofWords (words : List String) : Except Refusal Invocation :=
  Draft.readInvocation {} words

/-- How to use commands. -/
def usage : List String :=
  ["usage: eqasm [-v] check FILE [--emit FILE]",
    "       eqasm [-v] run FILE [MACHINE] [--dump-mem ADDR:LEN]",
    "       eqasm [-v] shots FILE [MACHINE] [-n COUNT]",
    "MACHINE: [-c FILE] [--max-cycles N] [--qubits N] [--backend ideal|bitflip|random]",
    "         [--seed N] [--p-one P] [--mem-image FILE]"]

end Eqasm
