/-!
# Tallies of shots

A tally gathers what many runs of one program ended with: how many cycles they took, how many of
them the cycle bound stopped, and how often each row of measurement results came out.

The counts of the outcomes are kept by increasing key, so that a tally depends only on the shots in
it and not on the order in which they came.
-/

namespace Eqasm

/-- Counts of outcomes, by increasing key. -/
abbrev Counts := List (String × Nat)

namespace Counts

/-- Adds `n` to the count of a key. -/
def bump (key : String) (n : Nat) : Counts → Counts
  | [] => [(key, n)]
  | (k, m) :: rest =>
    if key < k then (key, n) :: (k, m) :: rest
    else if key = k then (k, m + n) :: rest
    else (k, m) :: bump key n rest

/-- Adds all counts of `d`. -/
def merge (c d : Counts) : Counts :=
  d.foldl (fun c entry => bump entry.1 entry.2 c) c

/-- Whether an entry comes before another in a ranking: the frequent ones first, equally frequent
ones by key. -/
def ranksBefore (a b : String × Nat) : Bool :=
  b.2 < a.2 || (b.2 = a.2 && a.1 ≤ b.1)

/-- The entries from the most frequent to the least frequent one. -/
def ranking (c : Counts) : List (String × Nat) :=
  c.mergeSort ranksBefore

end Counts

/-- What a number of shots ended with. -/
structure Tally where
  /-- The least number of cycles of a shot. Without shots, the greatest number that a counter of 64
  bits can hold. -/
  least : Nat := 0xFFFFFFFFFFFFFFFF
  /-- The greatest number of cycles of a shot. -/
  greatest : Nat := 0
  /-- The cycles of all shots together. -/
  total : Nat := 0
  shots : Nat := 0
  /-- The shots that the cycle bound stopped. -/
  truncated : Nat := 0
  outcomes : Counts := []
  deriving DecidableEq, Repr

/-- The key of a row of measurement results, qubit 0 first. -/
def outcomeKey (results : List Nat) : String :=
  String.ofList (results.map fun result => if result = 0 then '0' else '1')

namespace Tally

/-- Adds a shot that ended with `results` after `cycles` cycles. -/
def add (t : Tally) (results : List Nat) (cycles : Nat) (halted : Bool) : Tally where
  least := min t.least cycles
  greatest := max t.greatest cycles
  total := t.total + cycles
  shots := t.shots + 1
  truncated := if halted then t.truncated else t.truncated + 1
  outcomes := t.outcomes.bump (outcomeKey results) 1

/-- The shots of both tallies. -/
def merge (t u : Tally) : Tally where
  least := min t.least u.least
  greatest := max t.greatest u.greatest
  total := t.total + u.total
  shots := t.shots + u.shots
  truncated := t.truncated + u.truncated
  outcomes := t.outcomes.merge u.outcomes

end Tally

end Eqasm
