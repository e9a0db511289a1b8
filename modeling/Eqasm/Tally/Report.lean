import Eqasm.Decimal.Fixed
import Eqasm.Tally
import Eqasm.Text.Align

/-!
# Reports on tallies

A report gives the numbers of a tally and then a line for each outcome with its share of the shots.
-/

namespace Eqasm

/-- A double with two decimal places. -/
def twoPlaces (x : Float) : String :=
  (Decimal.Real.ofBits Decimal.double x.toBits.toNat).fixed 2

namespace Tally

/-- The mean number of cycles of a shot; zero without shots. -/
def average (t : Tally) : Float :=
  if t.shots = 0 then 0 else .ofNat t.total / .ofNat t.shots

/-- The line of an outcome. -/
def outcomeLine (t : Tally) (key : String) (n : Nat) : String :=
  let share := twoPlaces (100 * .ofNat n / .ofNat t.shots)
  s!"  {key}: {alignRight 8 (toString n)} ({alignRight 6 share}%)"

/-- The lines of a report. -/
def report (t : Tally) : List String :=
  let header := ["", "Shot Statistics", s!"Shots:     {t.shots}"]
  let cycles := s!"min {t.least} / avg {twoPlaces t.average} / max {t.greatest}"
  if t.shots = 0 then header
  else
    header ++
      [s!"Truncated: {t.truncated}", s!"Cycles:    {cycles}", "Outcomes (q0 first):"] ++
      t.outcomes.ranking.map fun (key, n) => t.outcomeLine key n

end Tally

end Eqasm
