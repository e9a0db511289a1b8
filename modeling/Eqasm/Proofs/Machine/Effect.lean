import Eqasm.Machine
import Eqasm.Proofs.Machine.Destinations

/-!
# Effects

What can be changed at once. An operation other than a bundle makes at most one accepted write
(`Datapath.effect_of_compute`), and so does a user who writes to a register or to memory
(`Datapath.effect_of_write`). Calls change nothing but the backend and the results of the measured
qubits (`Datapath.Touches`).
-/

namespace Eqasm

namespace Datapath

variable {β : Type}

/-! ## Writes -/

/-- A datapath as it is, or behind one accepted write of an operation or of a user. -/
inductive Effect (s : Datapath β) : Datapath β → Prop
  | none : Effect s s
  | general {i : Nat} {c : Cell} {b : Bank} (h : s.general.write i c = .ok b) :
    Effect s { s with general := b }
  | floating {i : Nat} {c : Cell} {b : Bank} (h : s.floating.write i c = .ok b) :
    Effect s { s with floating := b }
  | single {i : Nat} {qubits : List Nat} {t : TargetRegisters}
    (h : TargetRegisters.setSingle i qubits s.targets = (t, .ok ())) :
    Effect s { s with targets := t }
  | pair {i : Nat} {pairs : List (Nat × Nat)} {t : TargetRegisters}
    (h : TargetRegisters.setPair i pairs s.targets = (t, .ok ())) :
    Effect s { s with targets := t }
  | flags (a b : Cell) : Effect s { s with flags := s.flags.compare a b }
  | byte {a : Nat} {b : UInt8} {m : Memory} (h : Memory.writeByte a b s.memory = (m, .ok ())) :
    Effect s { s with memory := m }
  | word {a : Nat} {w : UInt32} {m : Memory} (h : Memory.writeWord a w s.memory = (m, .ok ())) :
    Effect s { s with memory := m }
  | image {a : Nat} {image : List UInt8} {m : Memory}
    (h : Memory.loadImage a image s.memory = (m, .ok ())) : Effect s { s with memory := m }
  | clearGeneral : Effect s { s with general := s.general.clear }
  | clearFloating : Effect s { s with floating := s.floating.clear }

/-- A write of an operation is one of the accepted writes. -/
theorem Writes.effect {s t : Datapath β} {places : List Place} (h : Writes s places t) :
    Effect s t := by
  cases h with
  | nothing => exact .none
  | general h => exact .general h
  | floating h => exact .floating h
  | single h => exact .single h
  | pair h => exact .pair h
  | flags a b => exact .flags a b
  | byte h => exact .byte h
  | word h => exact .word h

/-- **An operation other than a bundle makes at most one accepted write.** -/
theorem effect_of_compute {s t : Datapath β} {o : Operation} (h : s.compute o = .ok t) :
    Effect s t := by
  by_cases hb : ∃ pi ops, o = .bundle pi ops
  · obtain ⟨pi, ops, rfl⟩ := hb
    cases h
    exact .none
  · exact (writes_of_compute (fun pi ops e => hb ⟨pi, ops, e⟩) h).effect

/-- What a user can write. -/
inductive Write where
  | general (i : Nat) (c : Cell)
  | signed (i : Nat) (v : Int)
  | clearGeneral
  | floating (i : Nat) (c : Cell)
  | clearFloating
  | byte (a : Nat) (b : UInt8)
  | word (a : Nat) (w : UInt32)
  | image (a : Nat) (image : List UInt8)

open Work

/-- Carries a write out. -/
def write : Write → Work (Datapath β) Fault Unit
  | .general i c => attempt (·.writeGeneral i c)
  | .signed i v => attempt (·.writeSigned i v)
  | .clearGeneral => change fun s => { s with general := s.general.clear }
  | .floating i c => attempt (·.writeFloating i c)
  | .clearFloating => change fun s => { s with floating := s.floating.clear }
  | .byte a b => onMemory (Memory.writeByte a b)
  | .word a w => onMemory (Memory.writeWord a w)
  | .image a image => onMemory (Memory.loadImage a image)

/-- What a write makes of the datapath. -/
def written (s : Datapath β) : Write → Except Fault (Datapath β)
  | .general i c => s.writeGeneral i c
  | .signed i v => s.writeSigned i v
  | .clearGeneral => return { s with general := s.general.clear }
  | .floating i c => s.writeFloating i c
  | .clearFloating => return { s with floating := s.floating.clear }
  | .byte a b => return { s with memory := ← (Memory.writeByte a b).exec s.memory }
  | .word a w => return { s with memory := ← (Memory.writeWord a w).exec s.memory }
  | .image a image => return { s with memory := ← (Memory.loadImage a image).exec s.memory }

/-- **To carry a write out is to attempt it as a whole.** -/
theorem write_eq (w : Write) : write (β := β) w = attempt (·.written w) := by
  cases w with
  | general | signed | clearGeneral | floating | clearFloating => rfl
  | byte a b => exact onMemory_eq (Memory.writeByte_eq a b)
  | word a w => exact onMemory_eq (Memory.writeWord_eq a w)
  | image a image => exact onMemory_eq (Memory.loadImage_eq a image)

theorem effect_of_written {s t : Datapath β} {w : Write} (h : s.written w = .ok t) :
    Effect s t := by
  cases w with
  | general i c => exact (writes_writeGeneral h).effect
  | signed i v => exact (writes_writeSigned h).effect
  | clearGeneral =>
    cases h
    exact .clearGeneral
  | floating i c => exact (writes_writeFloating h).effect
  | clearFloating =>
    cases h
    exact .clearFloating
  | byte a b =>
    obtain ⟨m, hm, e⟩ := except_bind_eq_ok.1 h
    cases e
    exact .byte (exec_eq_ok.1 hm)
  | word a w =>
    obtain ⟨m, hm, e⟩ := except_bind_eq_ok.1 h
    cases e
    exact .word (exec_eq_ok.1 hm)
  | image a image =>
    obtain ⟨m, hm, e⟩ := except_bind_eq_ok.1 h
    cases e
    exact .image (exec_eq_ok.1 hm)

/-- A write has an effect, or fails and has none. -/
theorem effect_of_write {s t : Datapath β} {w : Write} {r : Except Fault Unit}
    (h : write w s = (t, r)) : Effect s t := by
  rw [write_eq] at h
  cases r with
  | ok => exact effect_of_written (attempt_eq_ok.1 h)
  | error cause =>
    obtain ⟨rfl, -⟩ := attempt_eq_error.1 h
    exact .none

/-- Writes leave the results of measurements and the backend alone. -/
theorem Effect.results_backend {s t : Datapath β} (h : Effect s t) :
    t.results = s.results ∧ t.backend = s.backend := by
  cases h <;> exact ⟨rfl, rfl⟩

/-! ## Restarts and resets -/

/-- The datapath behind a restart. -/
def restart (s : Datapath β) : Datapath β :=
  { s with flags := {}, results := s.results.map fun _ => 0 }

/-- The datapath with all registers cleared. -/
def clear (s : Datapath β) : Datapath β :=
  { s with
    general := s.general.clear
    floating := s.floating.clear
    targets := s.targets.clear }

/-! ## Calls -/

/-- What calls can change: the backend, and the results of the qubits that they measure. -/
structure Touches (calls : List Call) (s t : Datapath β) : Prop where
  others : t = { s with backend := t.backend, results := t.results }
  results_size : t.results.size = s.results.size
  results : ∀ q, .measure q ∉ calls → t.results[q]? = s.results[q]?

theorem Touches.refl (calls : List Call) (s : Datapath β) : Touches calls s s :=
  ⟨rfl, rfl, fun _ _ => rfl⟩

theorem Touches.backend (calls : List Call) (s : Datapath β) (b : β) :
    Touches calls s { s with backend := b } :=
  ⟨rfl, rfl, fun _ _ => rfl⟩

theorem Touches.trans {xs ys : List Call} {s t u : Datapath β} (h : Touches xs s t)
    (h' : Touches ys t u) : Touches (xs ++ ys) s u := by
  refine ⟨?_, h'.results_size.trans h.results_size, fun q hq => ?_⟩
  · rw [h'.others, h.others]
  · rw [List.mem_append, not_or] at hq
    exact (h'.results q hq.2).trans (h.results q hq.1)

variable [Backend β]

/-- A call that goes well changes the backend, and a measurement the result of its qubit. -/
theorem perform_ok {s t : Datapath β} {c : Call} (h : s.perform c = (t, .ok ())) :
    (∃ b, t = { s with backend := b } ∧ ∀ q, c ≠ .measure q) ∨
      ∃ b q outcome, c = .measure q ∧ outcome ≤ 1 ∧
        t = { s with backend := b, results := s.results.setIfInBounds q outcome } := by
  cases c with
  | gate name q | pairGate name p q =>
    simp only [perform] at h
    split at h
    · cases h
      exact .inl ⟨_, rfl, by simp⟩
    · cases h
  | measure q =>
    simp only [perform] at h
    split at h
    · cases h
    · split at h
      · cases h
        exact .inr ⟨_, q, _, rfl, ‹_›, rfl⟩
      · cases h

/-- A call that goes wrong changes nothing but the backend. -/
theorem perform_error {s t : Datapath β} {c : Call} {cause : Fault}
    (h : s.perform c = (t, .error cause)) : ∃ b, t = { s with backend := b } := by
  cases c with
  | gate name q | pairGate name p q =>
    simp only [perform] at h
    split at h
    · cases h
    · cases h
      exact ⟨s.backend, rfl⟩
  | measure q =>
    simp only [perform] at h
    split at h
    · cases h
      exact ⟨s.backend, rfl⟩
    · split at h
      · cases h
      · cases h
        exact ⟨_, rfl⟩

theorem touches_of_perform {s t : Datapath β} {c : Call} {r : Except Fault Unit}
    (h : s.perform c = (t, r)) : Touches [c] s t := by
  cases r with
  | error cause =>
    obtain ⟨b, rfl⟩ := perform_error h
    exact .backend _ s b
  | ok =>
    rcases perform_ok h with ⟨b, rfl, -⟩ | ⟨b, q, outcome, rfl, -, rfl⟩
    · exact .backend _ s b
    · refine ⟨rfl, by simp, fun p hp => ?_⟩
      have hne : q ≠ p := by
        rintro rfl
        exact hp (by simp)
      rw [Array.getElem?_setIfInBounds_ne hne]

theorem touches_of_issue {calls : List Call} {s t : Datapath β} {r : Except Fault Unit}
    (h : s.issue calls = (t, r)) : Touches calls s t := by
  induction calls generalizing s with
  | nil =>
    cases h
    exact .refl _ _
  | cons c calls ih =>
    rw [issue] at h
    split at h
    · rename_i u hu
      exact (touches_of_perform hu).trans (ih h)
    · rename_i u cause hu
      cases h
      exact (touches_of_perform hu).trans (.refl calls _)

/-- Calls that go wrong as a whole go well up to one that goes wrong. -/
theorem exists_of_issue_error {calls : List Call} {s t : Datapath β} {cause : Fault}
    (h : s.issue calls = (t, .error cause)) :
    ∃ before c after u, calls = before ++ c :: after ∧ s.issue before = (u, .ok ()) ∧
      u.perform c = (t, .error cause) := by
  induction calls generalizing s with
  | nil => cases h
  | cons c calls ih =>
    rw [issue] at h
    split at h
    · rename_i u hu
      obtain ⟨before, d, after, v, rfl, hv, hd⟩ := ih h
      exact ⟨c :: before, d, after, v, rfl, by rw [issue, hu]; exact hv, hd⟩
    · rename_i u e hu
      cases h
      exact ⟨[], c, calls, s, rfl, rfl, hu⟩

/-! ## Execution -/

/-- What becomes of a datapath when an operation is executed, and of the operation. -/
inductive Executes (s : Datapath β) : Operation → Datapath β → Except Fault Flow → Prop
  | failed {o : Operation} {cause : Fault} (ho : ∀ pi ops, o ≠ .bundle pi ops)
    (h : s.compute o = .error cause) : Executes s o s (.error cause)
  | done {o : Operation} {t : Datapath β} (ho : ∀ pi ops, o ≠ .bundle pi ops)
    (h : s.compute o = .ok t) : Executes s o t (.ok (o.flow s.flags))
  | unresolved {pi : UInt32} {ops : List MicroOp} {cause : Fault}
    (h : resolve s.targets ops = .error cause) : Executes s (.bundle pi ops) s (.error cause)
  | interrupted {pi : UInt32} {ops : List MicroOp} {calls : List Call} {t : Datapath β}
    {cause : Fault} (h : resolve s.targets ops = .ok calls)
    (h' : s.issue calls = (t, .error cause)) : Executes s (.bundle pi ops) t (.error cause)
  | issued {pi : UInt32} {ops : List MicroOp} {calls : List Call} {t : Datapath β}
    (h : resolve s.targets ops = .ok calls) (h' : s.issue calls = (t, .ok ())) :
    Executes s (.bundle pi ops) t (.ok .next)

/-- **The ways in which an operation is executed.** -/
theorem executes_of_execute {s t : Datapath β} {o : Operation} {r : Except Fault Flow}
    (h : s.execute o = (t, r)) : s.Executes o t r := by
  by_cases hb : ∃ pi ops, o = .bundle pi ops
  · obtain ⟨pi, ops, rfl⟩ := hb
    rw [execute] at h
    split at h
    · cases h
      exact .unresolved ‹_›
    · rename_i hcalls
      split at h
      · cases h
        exact .issued hcalls ‹_›
      · cases h
        exact .interrupted hcalls ‹_›
  · have ho : ∀ pi ops, o ≠ .bundle pi ops := fun pi ops e => hb ⟨pi, ops, e⟩
    rw [execute_eq ho] at h
    split at h
    · cases h
      exact .failed ho ‹_›
    · cases h
      exact .done ho ‹_›

/-- The way a program goes on depends on the operation and on the flags before it alone. -/
theorem flow_of_execute {s t : Datapath β} {o : Operation} {flow : Flow}
    (h : s.execute o = (t, .ok flow)) : flow = o.flow s.flags := by
  cases executes_of_execute h with
  | done => rfl
  | issued => rfl

end Datapath

/-- Only a branch jumps, and only if its flag is set. -/
theorem Operation.flow_eq_jump {o : Operation} {flags : Flags} {label : String} :
    o.flow flags = .jump label ↔ ∃ flag, o = .br flag label ∧ flags.get flag = true := by
  cases o with
  | br flag l =>
    rw [flow]
    by_cases h : flags.get flag = true
    · simp only [if_pos h, Flow.jump.injEq, br.injEq]
      exact ⟨fun e => ⟨flag, ⟨rfl, e⟩, h⟩, fun ⟨_, e, _⟩ => e.2⟩
    · simp only [if_neg h, br.injEq]
      exact ⟨fun e => (nomatch e), fun ⟨_, e, hf⟩ => absurd (e.1 ▸ hf) h⟩
  | _ => simp [flow]

/-- A stop and nothing else ends the run. -/
theorem Operation.flow_eq_stop {o : Operation} {flags : Flags} :
    o.flow flags = .stop ↔ o = .stop := by
  cases o with
  | br flag l =>
    rw [flow]
    split <;> simp
  | _ => simp [flow]

end Eqasm
