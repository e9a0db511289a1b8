import Eqasm.Instruction

/-!
# Label tables

Which instruction each label names. A label is entered once: `addAll?` refuses a label that is
there already, so the table of a program exists exactly if no label is carried twice. For one more
instruction, `duplicate?` looks for such a label before the first one is entered.
-/

namespace Eqasm

/-- Labels with the indices of their instructions, the latest entry first. -/
structure LabelTable where
  entries : List (String × Nat) := []
  deriving DecidableEq, Repr

namespace LabelTable

/-- The table without labels. -/
def empty : LabelTable :=
  {}

/-- The number of labels. -/
def size (t : LabelTable) : Nat :=
  t.entries.length

/-- The index of the instruction that a label names. -/
def find? (t : LabelTable) (label : String) : Option Nat :=
  t.entries.lookup label

/-- Whether a label names an instruction. -/
def contains (t : LabelTable) (label : String) : Bool :=
  (t.find? label).isSome

/-- Enters a label. -/
def insert (t : LabelTable) (label : String) (index : Nat) : LabelTable :=
  ⟨(label, index) :: t.entries⟩

/-- The first of some labels that is there already, or that stands before among the labels. -/
def duplicate? (t : LabelTable) (before : List String) : List String → Option String
  | [] => none
  | label :: rest =>
    if t.contains label || before.contains label then some label
    else t.duplicate? (before ++ [label]) rest

/-- Enters labels of one instruction. -/
def insertAll (t : LabelTable) (index : Nat) (labels : List String) : LabelTable :=
  labels.foldl (fun t label => t.insert label index) t

/-- Enters the labels of one instruction, or gives the first that is there already. -/
def addAll? (t : LabelTable) (index : Nat) : List String → Except String LabelTable
  | [] => .ok t
  | label :: rest =>
    if t.contains label then .error label else (t.insert label index).addAll? index rest

/-- Enters the labels of the instructions from `index` on. -/
def addProgram? (t : LabelTable) (index : Nat) : List Instruction → Except String LabelTable
  | [] => .ok t
  | i :: rest =>
    match t.addAll? index i.labels with
    | .error label => .error label
    | .ok t => t.addProgram? (index + 1) rest

/-- The table of a program, or a label that is carried twice. -/
def ofProgram? (program : List Instruction) : Except String LabelTable :=
  empty.addProgram? 0 program

/-- The entries by increasing label. -/
def sorted (t : LabelTable) : List (String × Nat) :=
  t.entries.mergeSort fun a b => a.1 ≤ b.1

end LabelTable

end Eqasm
