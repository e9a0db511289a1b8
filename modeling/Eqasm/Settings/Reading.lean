import Eqasm.Settings
import Eqasm.Toml.Document

/-!
# Reading settings

Settings are written as a document with two tables, `processor` and `backend`. Every entry may be
missing, and none may have another name. A section may also be written as an array that gives the
values of its first entries.
-/

namespace Eqasm

open Toml

/-- The entries of a section: the name of each, and what its value changes. -/
abbrev Section (σ : Type) := List (String × (σ → Value → Option σ))

namespace Section

variable {σ : Type}

/-- Reads the entries of a table. -/
def readTable (fields : Section σ) (initial : σ) (t : Table Value) : Option σ :=
  t.entries.foldlM (fun s (name, v) => do (← fields.lookup name) s v) initial

/-- Reads a section that has its defaults where it is silent. -/
def read (fields : Section σ) (initial : σ) : Value → Option σ
  | .table t => fields.readTable initial t
  | .array _ items => (fields.zip items).foldlM (fun s (field, v) => field.2 s v) initial
  | _ => none

end Section

/-- Reads a size or a count. -/
def readCount? : Value → Option Nat
  | .integer n => if 0 ≤ n then some n.toNat else none
  | _ => none

/-- Reads a number. -/
def readNumber? : Value → Option Float
  | .integer n => some (.ofInt n)
  | .float x => some x
  | _ => none

/-- Whether a value has nothing in it. -/
def isVacant : Value → Bool
  | .table t => t.entries.isEmpty
  | .array _ items => items.isEmpty
  | _ => false

/-- Reads a kind of backend: its name, or a table with the name as its only key and nothing as its
value. -/
def readKind? : Value → Option BackendKind
  | .string name => BackendKind.ofName? name
  | .table ⟨_, [(name, v)]⟩ => if isVacant v then BackendKind.ofName? name else none
  | _ => none

/-- The entries of the section on the machine. -/
def processorSection : Section Config :=
  let entry (name : String) (set : Config → Nat → Config) :
      String × (Config → Value → Option Config) :=
    (name, fun c v => (readCount? v).map (set c))
  [entry "insn_mem_size" fun c n => { c with programCapacity := n },
    entry "data_mem_size" fun c n => { c with memorySize := n },
    entry "num_gpr" fun c n => { c with generalCount := n },
    entry "num_fpr" fun c n => { c with floatCount := n },
    entry "num_sq_qotr" fun c n => { c with singleCount := n },
    entry "num_tq_qotr" fun c n => { c with pairCount := n },
    entry "qotr_capacity" fun c n => { c with targetCapacity := n },
    entry "num_qubits" fun c n => { c with qubits := n },
    entry "max_cycles" fun c n => { c with maxCycles := n },
    entry "start_addr" fun c n => { c with startAddress := n }]

/-- The entries of the section on the backend. -/
def backendSection : Section BackendSettings :=
  [("kind", fun s v => (readKind? v).map fun kind => { s with kind }),
    ("seed", fun s v => (readCount? v).map fun n => { s with seed := .ofNat n }),
    ("p_one", fun s v => (readNumber? v).map fun one => { s with one })]

/-- The sections of a document. -/
def settingsSection : Section Settings :=
  [("processor", fun s v => (processorSection.read {} v).map fun config => { s with config }),
    ("backend", fun s v => (backendSection.read {} v).map fun backend => { s with backend })]

/-- Reads settings. -/
def Settings.read? (text : String) : Option Settings := do
  settingsSection.readTable {} (← Document.read? text)

end Eqasm
