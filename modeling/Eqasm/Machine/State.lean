import Eqasm.Machine

/-!
# The state of a machine as text

All registers, the flags and the measurement results, in paragraphs with a title each.
-/

namespace Eqasm.Machine

/-- An empty line, a title and the lines of a listing, which ends each of its lines. -/
def paragraph (title listing : String) : List String :=
  "" :: title :: (listing.splitOn "\n").dropLast

/-- The lines that show the state of a machine. -/
def stateLines {β : Type} (m : Machine β) : List String :=
  let d := m.data
  let results := ", ".intercalate (d.results.toList.map toString)
  paragraph "General Purpose Registers" d.general.integerListing ++
    paragraph "Floating Point Registers" d.floating.singleListing ++
    paragraph "Condition Flags" d.flags.listing ++
    ["", s!"Measurement Results (q0 first): [{results}]"]

end Eqasm.Machine
