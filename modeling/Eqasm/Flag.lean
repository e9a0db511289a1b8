import Eqasm.Cell

/-!
# Condition flags

A comparison of two cells decides ten relations at once. Two further flags are not touched by it, so
that a branch on a flag also serves as a jump (`always`) and as no jump at all (`never`).
-/

namespace Eqasm

/-- How two cells can compare: as bit patterns, as unsigned or as signed numbers. -/
inductive Relation where
  | eq | ne | ltu | geu | leu | gtu | lt | ge | le | gt
  deriving DecidableEq, Repr

/-- A condition flag. -/
inductive Flag where
  | always
  | never
  | relation (r : Relation)
  deriving DecidableEq, Repr

/-- Whether two cells are in the relation. Cells of different widths are never equal. -/
def Relation.holds (r : Relation) (a b : Cell) : Bool :=
  match r with
  | .eq => a = b
  | .ne => a ≠ b
  | .ltu => a.bits < b.bits
  | .geu => a.bits ≥ b.bits
  | .leu => a.bits ≤ b.bits
  | .gtu => a.bits > b.bits
  | .lt => a.signed < b.signed
  | .ge => a.signed ≥ b.signed
  | .le => a.signed ≤ b.signed
  | .gt => a.signed > b.signed

/-- The name of a relation in programs. -/
def Relation.name : Relation → String
  | .eq => "eq"
  | .ne => "ne"
  | .ltu => "ltu"
  | .geu => "geu"
  | .leu => "leu"
  | .gtu => "gtu"
  | .lt => "lt"
  | .ge => "ge"
  | .le => "le"
  | .gt => "gt"

namespace Flag

/-- Every flag, in the order in which the flags are listed. -/
def all : List Flag :=
  [.always, .never, .relation .eq, .relation .ne, .relation .ltu, .relation .geu, .relation .leu,
    .relation .gtu, .relation .lt, .relation .ge, .relation .le, .relation .gt]

/-- The name of a flag in programs. -/
def name : Flag → String
  | .always => "always"
  | .never => "never"
  | .relation r => r.name

/-- The flag of a name. -/
def ofName? (name : String) : Option Flag :=
  all.find? (·.name = name)

/-- The position of a flag in the list of all flags. -/
def index (f : Flag) : Nat :=
  all.idxOf f

end Flag

/-- The states of all flags. Before the first comparison `always` is the only one that is set. -/
structure Flags where
  always : Bool := true
  never : Bool := false
  eq : Bool := false
  ne : Bool := false
  ltu : Bool := false
  geu : Bool := false
  leu : Bool := false
  gtu : Bool := false
  lt : Bool := false
  ge : Bool := false
  le : Bool := false
  gt : Bool := false
  deriving DecidableEq, Repr

namespace Flags

/-- Sets the flags of the relations by a comparison of `a` with `b`. -/
def compare (s : Flags) (a b : Cell) : Flags :=
  { s with
    eq := Relation.eq.holds a b
    ne := Relation.ne.holds a b
    ltu := Relation.ltu.holds a b
    geu := Relation.geu.holds a b
    leu := Relation.leu.holds a b
    gtu := Relation.gtu.holds a b
    lt := Relation.lt.holds a b
    ge := Relation.ge.holds a b
    le := Relation.le.holds a b
    gt := Relation.gt.holds a b }

/-- The state of a flag. -/
def get (s : Flags) : Flag → Bool
  | .always => s.always
  | .never => s.never
  | .relation .eq => s.eq
  | .relation .ne => s.ne
  | .relation .ltu => s.ltu
  | .relation .geu => s.geu
  | .relation .leu => s.leu
  | .relation .gtu => s.gtu
  | .relation .lt => s.lt
  | .relation .ge => s.ge
  | .relation .le => s.le
  | .relation .gt => s.gt

@[simp] theorem get_compare (s : Flags) (a b : Cell) (r : Relation) :
    (s.compare a b).get (.relation r) = r.holds a b := by
  cases r <;> rfl

/-- One digit for each flag, in the order of `Flag.all`. -/
def digits (s : Flags) : String :=
  String.ofList (Flag.all.map fun f => if s.get f then '1' else '0')

/-- One line for each flag: its name, right-aligned, and its state. -/
def listing (s : Flags) : String :=
  String.join (Flag.all.map fun f =>
    alignRight 6 f.name ++ (if s.get f then ": 1\n" else ": 0\n"))

end Flags

end Eqasm
