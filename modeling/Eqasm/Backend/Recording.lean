import Eqasm.Backend

/-!
# The recording backend

It writes down every call and answers measurements from a script, and with 0 behind its end.
-/

namespace Eqasm

/-- The calls so far and the outcomes to come. -/
structure Recording where
  calls : Array Call := #[]
  script : List Nat := []
  deriving DecidableEq, Repr

instance : Backend Recording where
  gate b name q := .ok { b with calls := b.calls.push (.gate name q) }
  pairGate b name p q := .ok { b with calls := b.calls.push (.pairGate name p q) }
  measure b q := .ok (b.script.headD 0, ⟨b.calls.push (.measure q), b.script.tail⟩)

end Eqasm
