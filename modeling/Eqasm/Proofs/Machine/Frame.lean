import Eqasm.Backend.Ideal
import Eqasm.Proofs.Machine.Sound

/-!
# What a step leaves alone

A step changes the destinations of its instruction and, besides these, the cycle counter, the
program counter and the stop flag only (`Machine.written_of_step`).
-/

namespace Eqasm

namespace Datapath

variable {β : Type}

/-! ## Places that hold the same -/

/-- The datapaths hold the same in a place. -/
def SameAt (s t : Datapath β) : Place → Prop
  | .general i => t.general.cells[i]? = s.general.cells[i]?
  | .floating i => t.floating.cells[i]? = s.floating.cells[i]?
  | .single i => t.targets.singles[i]? = s.targets.singles[i]?
  | .pair i => t.targets.pairs[i]? = s.targets.pairs[i]?
  | .byte a => t.memory.byte a = s.memory.byte a
  | .flag f => t.flags.get f = s.flags.get f
  | .result q => t.results[q]? = s.results[q]?
  | .backend => t.backend = s.backend

/-- All places but the given ones hold the same, and the registers, the memory and the results are
as many and as wide as they were. -/
structure SameOutside (places : List Place) (s t : Datapath β) : Prop where
  general : t.general = { s.general with cells := t.general.cells } ∧
    t.general.size = s.general.size
  floating : t.floating = { s.floating with cells := t.floating.cells } ∧
    t.floating.size = s.floating.size
  targets : t.targets = { s.targets with singles := t.targets.singles, pairs := t.targets.pairs } ∧
    t.targets.singles.size = s.targets.singles.size ∧ t.targets.pairs.size = s.targets.pairs.size
  memory : t.memory.size = s.memory.size
  results : t.results.size = s.results.size
  same : ∀ p, p ∉ places → s.SameAt t p

variable {s t : Datapath β}

theorem SameOutside.refl (places : List Place) (s : Datapath β) : SameOutside places s s := by
  refine ⟨⟨rfl, rfl⟩, ⟨rfl, rfl⟩, ⟨rfl, rfl, rfl⟩, rfl, rfl, fun p _ => ?_⟩
  cases p with
  | _ => rfl

/-! ## One write -/

theorem sameOutside_general {i : Nat} {c : Cell} {b : Bank} (h : s.general.write i c = .ok b) :
    SameOutside [.general i] s { s with general := b } := by
  obtain ⟨-, -, rfl⟩ := Bank.write_eq_ok.1 h
  refine ⟨⟨rfl, Array.size_setIfInBounds⟩, ⟨rfl, rfl⟩, ⟨rfl, rfl, rfl⟩, rfl, rfl, fun p hp => ?_⟩
  cases p with
  | general j =>
    have hne : i ≠ j := fun e => hp (e ▸ List.mem_cons_self)
    exact Array.getElem?_setIfInBounds_ne hne
  | _ => rfl

theorem sameOutside_floating {i : Nat} {c : Cell} {b : Bank} (h : s.floating.write i c = .ok b) :
    SameOutside [.floating i] s { s with floating := b } := by
  obtain ⟨-, -, rfl⟩ := Bank.write_eq_ok.1 h
  refine ⟨⟨rfl, rfl⟩, ⟨rfl, Array.size_setIfInBounds⟩, ⟨rfl, rfl, rfl⟩, rfl, rfl, fun p hp => ?_⟩
  cases p with
  | floating j =>
    have hne : i ≠ j := fun e => hp (e ▸ List.mem_cons_self)
    exact Array.getElem?_setIfInBounds_ne hne
  | _ => rfl

theorem sameOutside_single {i : Nat} {qubits : List Nat} {r : TargetRegisters}
    (h : TargetRegisters.setSingle i qubits s.targets = (r, .ok ())) :
    SameOutside [.single i] s { s with targets := r } := by
  obtain ⟨-, -, rfl⟩ := TargetRegisters.setSingle_eq_ok.1 h
  refine ⟨⟨rfl, rfl⟩, ⟨rfl, rfl⟩, ⟨rfl, Array.size_setIfInBounds, rfl⟩, rfl, rfl, fun p hp => ?_⟩
  cases p with
  | single j =>
    have hne : i ≠ j := fun e => hp (e ▸ List.mem_cons_self)
    exact Array.getElem?_setIfInBounds_ne hne
  | _ => rfl

theorem sameOutside_pair {i : Nat} {pairs : List (Nat × Nat)} {r : TargetRegisters}
    (h : TargetRegisters.setPair i pairs s.targets = (r, .ok ())) :
    SameOutside [.pair i] s { s with targets := r } := by
  obtain ⟨-, -, rfl⟩ := TargetRegisters.setPair_eq_ok.1 h
  refine ⟨⟨rfl, rfl⟩, ⟨rfl, rfl⟩, ⟨rfl, rfl, Array.size_setIfInBounds⟩, rfl, rfl, fun p hp => ?_⟩
  cases p with
  | pair j =>
    have hne : i ≠ j := fun e => hp (e ▸ List.mem_cons_self)
    exact Array.getElem?_setIfInBounds_ne hne
  | _ => rfl

/-- No comparison changes the two flags that are no relations. -/
theorem sameOutside_flags (s : Datapath β) (a b : Cell) :
    SameOutside Place.relations s { s with flags := s.flags.compare a b } := by
  refine ⟨⟨rfl, rfl⟩, ⟨rfl, rfl⟩, ⟨rfl, rfl, rfl⟩, rfl, rfl, fun p hp => ?_⟩
  cases p with
  | flag f' =>
    cases f' with
    | relation r => exact absurd (Place.relation_mem_relations r) hp
    | always | never => rfl
  | _ => rfl

theorem sameOutside_bytes {a n : Nat} {m : Memory} (hsize : m.size = s.memory.size)
    (hbyte : ∀ c, c < a ∨ a + n ≤ c → m.byte c = s.memory.byte c) :
    SameOutside (Place.bytes a n) s { s with memory := m } := by
  refine ⟨⟨rfl, rfl⟩, ⟨rfl, rfl⟩, ⟨rfl, rfl, rfl⟩, hsize, rfl, fun p hp => ?_⟩
  cases p with
  | byte c =>
    rw [Place.byte_mem_bytes] at hp
    exact hbyte c (by omega)
  | _ => rfl

/-- **A write changes nothing but the places that it is made to.** -/
theorem Writes.sameOutside {places : List Place} (h : s.Writes places t) :
    SameOutside places s t := by
  cases h with
  | nothing => exact .refl [] s
  | general h => exact sameOutside_general h
  | floating h => exact sameOutside_floating h
  | single h => exact sameOutside_single h
  | pair h => exact sameOutside_pair h
  | flags a b => exact sameOutside_flags s a b
  | @byte a b m h =>
    obtain ⟨-, rfl⟩ := Memory.writeByte_eq_ok.1 h
    have hholds := s.memory.holds_byte a (Nat.mod_eq_of_lt b.toNat_lt).symm
    exact sameOutside_bytes hholds.size hholds.outside
  | @word a w m h =>
    obtain ⟨-, rfl⟩ := Memory.writeWord_eq_ok.1 h
    have hholds := s.memory.holds_word a w
    exact sameOutside_bytes hholds.size hholds.outside

/-- Calls change nothing but the backend and the results of the qubits that they measure. -/
theorem Touches.sameOutside {calls : List Call} (h : Touches calls s t) :
    SameOutside (Place.ofCalls calls) s t := by
  obtain ⟨hothers, hsize, hresults⟩ := h
  rw [hothers]
  refine ⟨⟨rfl, rfl⟩, ⟨rfl, rfl⟩, ⟨rfl, rfl, rfl⟩, rfl, hsize, fun p hp => ?_⟩
  cases p with
  | result q => exact hresults q fun hq => hp (Place.result_mem_ofCalls.2 hq)
  | backend => exact absurd (Place.backend_mem_ofCalls calls) hp
  | _ => rfl

/-- **An operation that is executed changes nothing but its destinations.** -/
theorem sameOutside_of_execute [Backend β] {o : Operation} {flow : Flow}
    (h : s.execute o = (t, .ok flow)) : SameOutside (s.destinations o) s t := by
  cases executes_of_execute h with
  | done ho hcompute => exact (writes_of_compute ho hcompute).sameOutside
  | issued hcalls hissue =>
    rw [destinations, hcalls]
    exact (touches_of_issue hissue).sameOutside

/-- An operation without destinations changes nothing. -/
theorem eq_of_execute [Backend β] {o : Operation} {flow : Flow}
    (h : s.execute o = (t, .ok flow)) (ho : s.destinations o = []) : t = s := by
  cases executes_of_execute h with
  | done hb hcompute =>
    have hwrites := writes_of_compute hb hcompute
    rw [ho] at hwrites
    generalize hplaces : ([] : List Place) = places at hwrites
    cases hwrites with
    | nothing => rfl
    | general | floating | single | pair | flags | byte | word => cases hplaces
  | issued hcalls =>
    rw [destinations, hcalls] at ho
    cases ho

end Datapath

namespace Machine

/-- **A step writes to the destinations of its instruction and to nothing else.** A machine that has
halted is left as it is. A step that goes well adds one to the cycle counter, goes to the target of
a taken branch and otherwise to the next instruction, and halts the machine exactly if the
instruction is a stop. -/
theorem written_of_step {β : Type} [Backend β] (m : Machine β) :
    (m.halted = true → m.step = (m, none)) ∧
    ∀ m', m.halted = false → m.step = (m', none) →
      ∃ i, m.program[m.pc]? = some i ∧
        m' = { m with data := m'.data, cycle := m.cycle + 1, pc := m'.pc, halted := m'.halted } ∧
        (∀ flag label, i.operation = .br flag label → m.data.flags.get flag = true →
          m.labels.find? label = some m'.pc) ∧
        ((∀ flag label, i.operation = .br flag label → m.data.flags.get flag = false) →
          m'.pc = m.pc + 1) ∧
        (m'.halted = true ↔ i.operation = .stop) ∧
        Datapath.SameOutside (m.data.destinations i.operation) m.data m'.data ∧
        (m.data.destinations i.operation = [] → m'.data = m.data) := by
  refine ⟨fun hh => (Steps.rest hh).step_eq, fun m' hh h => ?_⟩
  cases steps_of_step h with
  | rest hh' => exact absurd (hh.symm.trans hh') Bool.false_ne_true
  | @next i data _ hi he =>
    have hflow := Datapath.flow_of_execute he
    refine ⟨i, hi, rfl, fun flag label ho hset => ?_, fun _ => rfl, ⟨fun e => ?_, fun ho => ?_⟩,
      Datapath.sameOutside_of_execute he, Datapath.eq_of_execute he⟩
    · cases hflow.trans (Operation.flow_eq_jump.2 ⟨flag, ho, hset⟩)
    · exact absurd (hh.symm.trans e) Bool.false_ne_true
    · cases hflow.trans (Operation.flow_eq_stop.2 ho)
  | @stop i data _ hi he =>
    have hflow := Datapath.flow_of_execute he
    refine ⟨i, hi, rfl, fun flag label ho hset => ?_, fun _ => rfl,
      ⟨fun _ => Operation.flow_eq_stop.1 hflow.symm, fun _ => rfl⟩,
      Datapath.sameOutside_of_execute he, Datapath.eq_of_execute he⟩
    cases hflow.trans (Operation.flow_eq_jump.2 ⟨flag, ho, hset⟩)
  | @jump i data label k _ hi he hk =>
    have hflow := Datapath.flow_of_execute he
    obtain ⟨flag, ho, hset⟩ := Operation.flow_eq_jump.1 hflow.symm
    refine ⟨i, hi, rfl, fun flag' label' ho' hset' => ?_, fun hnot => ?_,
      ⟨fun e => ?_, fun ho' => ?_⟩, Datapath.sameOutside_of_execute he, Datapath.eq_of_execute he⟩
    · obtain rfl : label = label' := by
        cases ho.symm.trans ho'
        rfl
      exact hk
    · exact absurd ((hnot flag label ho).symm.trans hset) Bool.false_ne_true
    · exact absurd (hh.symm.trans e) Bool.false_ne_true
    · cases ho.symm.trans ho'

/-- A byte is stored in the middle of a word. The other bytes of the word stay. -/
theorem written_of_step_of_byte :
    ∃ m m' : Machine Ideal, m.halted = false ∧
      m.program[m.pc]? = some ⟨[], .store .byte 1 2 1⟩ ∧
      m.data.destinations (.store .byte 1 2 1) = [.byte 5] ∧ m.data.memory.byte 4 = 0x11 ∧
      m.data.memory.byte 5 = 0x22 ∧ m.data.memory.byte 6 = 0x33 ∧ m.step = (m', none) ∧
      m'.data.memory.byte 5 = 0xFE ∧ m'.data.memory.byte 4 = 0x11 ∧
      m'.data.memory.byte 6 = 0x33 := by
  obtain ⟨m₀, hmake⟩ : ∃ m₀ : Machine Ideal,
      make { memorySize := 16, generalCount := 3, floatCount := 1, qubits := 1 } ⟨⟩ = .ok m₀ :=
    ⟨_, rfl⟩
  obtain ⟨m, hm⟩ : ∃ m, m₀.acts [.upload [⟨[], .store .byte 1 2 1⟩], .write (.word 4 0x44332211),
      .write (.signed 1 (-2)), .write (.signed 2 4)] = m := ⟨_, rfl⟩
  have hrun : m.halted = false ∧ m.program[m.pc]? = some ⟨[], .store .byte 1 2 1⟩ ∧
      m.data.destinations (.store .byte 1 2 1) = [.byte 5] ∧ m.data.memory.byte 4 = 0x11 ∧
      m.data.memory.byte 5 = 0x22 ∧ m.data.memory.byte 6 = 0x33 ∧ m.step.2 = none ∧
      m.step.1.data.memory.byte 5 = 0xFE := by
    cases hmake
    cases hm
    decide +kernel
  obtain ⟨hhalted, hat, hdestinations, hfour, hfive, hsix, hnone, hstored⟩ := hrun
  have hstep : m.step = (m.step.1, none) := Prod.ext rfl hnone
  obtain ⟨i, hi, -, -, -, -, hframe, -⟩ := (written_of_step m).2 m.step.1 hhalted hstep
  obtain rfl : ⟨[], .store .byte 1 2 1⟩ = i := Option.some_inj.1 (hat.symm.trans hi)
  have hsame := hframe.same
  rw [hdestinations] at hsame
  have hkept : m.step.1.data.memory.byte 4 = m.data.memory.byte 4 := hsame (.byte 4) (by decide)
  have hkept' : m.step.1.data.memory.byte 6 = m.data.memory.byte 6 := hsame (.byte 6) (by decide)
  exact ⟨m, m.step.1, hhalted, hat, hdestinations, hfour, hfive, hsix, hstep, hstored,
    hkept.trans hfour, hkept'.trans hsix⟩

end Machine

end Eqasm
