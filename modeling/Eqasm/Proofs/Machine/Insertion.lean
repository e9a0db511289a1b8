import Eqasm.Backend.Recording
import Eqasm.Proofs.LabelTable.Insertion
import Eqasm.Proofs.Machine.Finish
import Eqasm.Proofs.Machine.Labels

/-!
# Programs do not depend on places

An instruction that does nothing but take a cycle (`Instruction.Idle`) is inserted into a program.
The longer program does what the shorter one does, step by step, except that it has to execute the
new instruction whenever it comes by (`Machine.Follows`). So one of the programs ends if the other
one does, in the same way, behind the same calls and with the same data
(`Machine.finishes_of_insertion`).
-/

namespace Eqasm

/-! ## Idle instructions -/

/-- An instruction without labels that does nothing. -/
inductive Instruction.Idle : Instruction → Prop
  | nop : Idle ⟨[], .nop⟩
  | qwait (imm : UInt32) : Idle ⟨[], .qwait imm⟩

namespace Instruction.Idle

variable {w : Instruction}

theorem labels_eq_nil (h : w.Idle) : w.labels = [] := by
  cases h <;> rfl

theorem branchLabel?_eq_none (h : w.Idle) : w.operation.branchLabel? = none := by
  cases h <;> rfl

variable {β : Type} [Backend β]

theorem execute_eq (h : w.Idle) (s : Datapath β) : s.execute w.operation = (s, .ok .next) := by
  cases h <;> rfl

theorem calls_eq_nil (h : w.Idle) (s : Datapath β) : s.calls w.operation = [] := by
  cases h <;> rfl

end Instruction.Idle

namespace Machine

variable {β : Type}

/-- The machine `b` is in the state of `a`, except for its program with the labels, its place in it
and the number of cycles, which is not smaller. -/
structure Trails (b a : Machine β) : Prop where
  config : b.config = a.config
  data : b.data = a.data
  halted : b.halted = a.halted
  verbose : b.verbose = a.verbose
  cycle : a.cycle ≤ b.cycle

/-- The program of `b` is that of `a` with `w` inserted at `i`, and `b` has come as far as `a`: it
is at the same instruction, or has yet to execute `w` before. -/
structure Follows (i : Nat) (w : Instruction) (b a : Machine β) : Prop extends Trails b a where
  program : b.program.toList = a.program.toList.insertIdx i w
  le_size : i ≤ a.program.size
  labels : a.Labelled
  moved : b.Labelled
  resolved : a.Resolved
  pc : b.pc = shift i a.pc ∨ b.pc = i ∧ a.pc = i

/-! ## Loading -/

/-- If a program is accepted, so is the longer one. -/
theorem exists_check_insertIdx {m : Machine β} {program : List Instruction} {labels : LabelTable}
    (h : m.check program = .ok labels) {i : Nat} (hi : i ≤ program.length)
    (hsize : program.length + 1 ≤ m.config.programCapacity) {w : Instruction} (hw : w.Idle) :
    ∃ labels', m.check (program.insertIdx i w) = .ok labels' := by
  obtain ⟨-, hdescribes, hresolved⟩ := check_eq_ok.1 h
  obtain ⟨labels', hdescribes'⟩ := hdescribes.exists_insertIdx hi hw.labels_eq_nil
  refine ⟨labels', check_eq_ok.2 ⟨?_, hdescribes', ?_⟩⟩
  · rw [List.length_insertIdx_of_le_length hi]
    exact hsize
  · intro j hj label hlabel
    rcases (List.mem_insertIdx hi).1 hj with rfl | hj
    · rw [hw.branchLabel?_eq_none] at hlabel
      cases hlabel
    · have hfind := hdescribes.find?_insertIdx hdescribes' hi hw.labels_eq_nil label
      have hcontains := hresolved j hj label hlabel
      rw [LabelTable.contains] at hcontains ⊢
      rw [hfind, Option.isSome_map]
      exact hcontains

/-- Both programs start together. -/
theorem follows_of_check {m : Machine β} {program : List Instruction} {i : Nat} {w : Instruction}
    {labels labels' : LabelTable} (h : m.check program = .ok labels)
    (h' : m.check (program.insertIdx i w) = .ok labels') (hi : i ≤ program.length)
    (hstart : m.config.startAddress ≤ i) :
    Follows i w { m.reset with program := (program.insertIdx i w).toArray, labels := labels' }
      { m.reset with program := program.toArray, labels } where
  config := rfl
  data := rfl
  halted := rfl
  verbose := rfl
  cycle := Nat.le_refl _
  program := rfl
  le_size := hi
  labels := labelled_of_check h
  moved := labelled_of_check h'
  resolved := fun j hj => resolved_of_check h j (by simpa using hj)
  pc := by
    show m.config.startAddress = shift i m.config.startAddress ∨ _
    rcases Nat.lt_or_eq_of_le hstart with hlt | heq
    · exact .inl (shift_of_lt hlt).symm
    · exact .inr ⟨heq, heq⟩

/-! ## One step -/

variable [Backend β]

namespace Follows

variable {i : Nat} {w : Instruction} {a b : Machine β}

omit [Backend β] in
/-- Both machines have taken a step, and the next instruction is the same. -/
theorem advance (h : Follows i w b a) (data : Datapath β) {x y : Bool} (hxy : y = x) {j k : Nat}
    (hjk : k = shift i j ∨ k = i ∧ j = i) :
    Follows i w { b with data, cycle := b.cycle + 1, pc := k, halted := y }
      { a with data, cycle := a.cycle + 1, pc := j, halted := x } where
  config := h.config
  data := rfl
  halted := hxy
  verbose := h.verbose
  cycle := Nat.succ_le_succ h.cycle
  program := h.program
  le_size := h.le_size
  labels := h.labels
  moved := h.moved
  resolved := h.resolved
  pc := hjk

omit [Backend β] in
/-- The machines are at the same instruction, unless the longer program is at the new one. -/
theorem getElem?_program (h : Follows i w b a) (hpc : b.pc = shift i a.pc) :
    b.program[b.pc]? = a.program[a.pc]? := by
  rw [← Array.getElem?_toList, ← Array.getElem?_toList, h.program, hpc, getElem?_insertIdx_shift]

/-- The longer program executes the new instruction. -/
theorem wait (h : Follows i w b a) (hw : w.Idle) (hpc : b.pc = i) (hh : b.halted = false) :
    ∃ b', b.step = (b', none) ∧ b.stepCalls = [] ∧ Follows i w b' a ∧ b'.pc = shift i a.pc := by
  have ha : a.pc = i := by
    rcases h.pc with e | ⟨-, e⟩
    · exact absurd (e.symm.trans hpc) (shift_ne i a.pc)
    · exact e
  have hi : b.program[b.pc]? = some w := by
    rw [← Array.getElem?_toList, h.program, hpc, List.getElem?_insertIdx_self, Array.length_toList,
      if_pos h.le_size]
  have hnext : b.pc + 1 = shift i a.pc := by
    rw [hpc, ha, shift_of_le (Nat.le_refl i)]
  refine ⟨_, (Steps.next hh hi (hw.execute_eq b.data)).step_eq, ?_, ?_, hnext⟩
  · simp [stepCalls, stepNotes, hi, hw.calls_eq_nil]
  · exact { h with
      cycle := Nat.le_succ_of_le h.cycle
      pc := .inl hnext }

/-- **Both machines execute the same instruction**, and go on in the same way. -/
theorem step (h : Follows i w b a) (hw : w.Idle) (hpc : b.pc = shift i a.pc)
    (hh : a.halted = false) :
    ∃ a' b' e, a.step = (a', Ending.error? a' e) ∧ b.step = (b', e.error? b') ∧
      b.stepCalls = a.stepCalls ∧ Follows i w b' a' := by
  have hb : b.halted = false := h.halted.trans hh
  have hprogram := h.getElem?_program hpc
  have hcalls : b.stepCalls = a.stepCalls := by
    rw [stepCalls, stepCalls, stepNotes, stepNotes, hprogram, h.halted, h.data]
  have hexecute : ∀ o, b.data.execute o = a.data.execute o := by
    rw [h.data]
    exact fun _ => rfl
  rcases ha : a.step with ⟨a', error⟩
  cases steps_of_step ha with
  | rest hhalted => simp [hh] at hhalted
  | outside _ hi =>
    exact ⟨a, b, .outside, rfl, (Steps.outside hb (hprogram.trans hi)).step_eq, hcalls, h⟩
  | @fault _ data cause _ hi he =>
    exact ⟨_, _, .fault cause, rfl,
      (Steps.fault hb (hprogram.trans hi) ((hexecute _).trans he)).step_eq, hcalls,
      h.advance data h.halted h.pc⟩
  | @next _ data _ hi he =>
    refine ⟨_, _, .halted, rfl,
      (Steps.next hb (hprogram.trans hi) ((hexecute _).trans he)).step_eq, hcalls,
      h.advance data h.halted ?_⟩
    rw [hpc]
    exact shift_succ i a.pc
  | @stop _ data _ hi he =>
    refine ⟨_, _, .halted, rfl,
      (Steps.stop hb (hprogram.trans hi) ((hexecute _).trans he)).step_eq, hcalls,
      h.advance data rfl ?_⟩
    rw [hpc]
    exact shift_succ i a.pc
  | @jump _ data label k _ hi he hk =>
    have hfind : b.labels.find? label = some (shift i k) := by
      rw [h.labels.find?_insertIdx (h.program ▸ h.moved) h.le_size hw.labels_eq_nil, hk]
      rfl
    exact ⟨_, _, .halted, rfl,
      (Steps.jump hb (hprogram.trans hi) ((hexecute _).trans he) hfind).step_eq, hcalls,
      h.advance data h.halted (.inl rfl)⟩
  | lost _ _ _ _ => exact absurd (congrArg Prod.snd ha) (h.resolved.step_ne _ _)

/-! ## Runs -/

/-- The longer program comes to the instruction that the shorter one is at. -/
theorem exists_arrived (h : Follows i w b a) (hw : w.Idle) (hh : a.halted = false) :
    ∃ b₁, Follows i w b₁ a ∧ b₁.pc = shift i a.pc ∧
      ∀ calls b' e, b₁.Finishes calls b' e → b.Finishes calls b' e := by
  rcases h.pc with hpc | ⟨hpc, -⟩
  · exact ⟨b, h, hpc, fun _ _ _ hb => hb⟩
  · have hb : b.halted = false := h.halted.trans hh
    obtain ⟨b₁, hstep, hcalls, h₁, hpc₁⟩ := h.wait hw hpc hb
    refine ⟨b₁, h₁, hpc₁, fun calls b' e hfinishes => ?_⟩
    have := Finishes.step hb hstep hfinishes
    rwa [hcalls, List.nil_append] at this

/-- If the shorter program ends, the longer one does. -/
theorem finishes (h : Follows i w b a) (hw : w.Idle) {calls : List Call} {a' : Machine β}
    {e : Ending} (ha : a.Finishes calls a' e) : ∃ b', b.Finishes calls b' e ∧ b'.Trails a' := by
  induction ha generalizing b with
  | halted hh => exact ⟨b, .halted (h.halted.trans hh), h.toTrails⟩
  | failed hh he hs =>
    obtain ⟨b₁, h₁, hpc₁, hfinishes⟩ := h.exists_arrived hw hh
    obtain ⟨a', b', e', ha, hb, hcalls, h'⟩ := h₁.step hw hpc₁ hh
    obtain ⟨rfl, herror⟩ := Prod.mk.inj (hs.symm.trans ha)
    obtain rfl := Ending.error?_inj herror
    refine ⟨b', hfinishes _ _ _ ?_, h'.toTrails⟩
    rw [← hcalls]
    exact .failed (h₁.halted.trans hh) he hb
  | step hh hs _ ih =>
    obtain ⟨b₁, h₁, hpc₁, hfinishes⟩ := h.exists_arrived hw hh
    obtain ⟨a', b', e', ha, hb, hcalls, h'⟩ := h₁.step hw hpc₁ hh
    obtain ⟨rfl, herror⟩ := Prod.mk.inj (hs.symm.trans ha)
    obtain rfl := Ending.error?_eq_none.1 herror.symm
    obtain ⟨last, hlast, htrails⟩ := ih h'
    refine ⟨last, hfinishes _ _ _ ?_, htrails⟩
    rw [← hcalls]
    exact .step (h₁.halted.trans hh) hb hlast

/-- If the longer program ends, the shorter one does. -/
theorem finishes_back (h : Follows i w b a) (hw : w.Idle) {calls : List Call} {b' : Machine β}
    {e : Ending} (hb : b.Finishes calls b' e) : ∃ a', a.Finishes calls a' e ∧ b'.Trails a' := by
  induction hb generalizing a with
  | halted hh => exact ⟨a, .halted (h.halted.symm.trans hh), h.toTrails⟩
  | @failed b b' e hh he hs =>
    have ha : a.halted = false := h.halted.symm.trans hh
    by_cases hpc : b.pc = i
    · -- the new instruction does not fail
      obtain ⟨next, hwait, -⟩ := h.wait hw hpc hh
      have herror := (Prod.mk.inj (hs.symm.trans hwait)).2
      exact absurd (Ending.error?_eq_none.1 herror) he
    · have hpc : b.pc = shift i a.pc := h.pc.resolve_right fun hwait => hpc hwait.1
      obtain ⟨a', b'', e', hstep, hb, hcalls, h'⟩ := h.step hw hpc ha
      obtain ⟨rfl, herror⟩ := Prod.mk.inj (hs.symm.trans hb)
      obtain rfl := Ending.error?_inj herror
      rw [hcalls]
      exact ⟨a', .failed ha he hstep, h'.toTrails⟩
  | @step b next last calls e hh hs _ ih =>
    have ha : a.halted = false := h.halted.symm.trans hh
    by_cases hpc : b.pc = i
    · -- the shorter program stays where it is
      obtain ⟨b', hwait, hcalls, h', -⟩ := h.wait hw hpc hh
      obtain ⟨rfl, -⟩ := Prod.mk.inj (hs.symm.trans hwait)
      rw [hcalls, List.nil_append]
      exact ih h'
    · have hpc : b.pc = shift i a.pc := h.pc.resolve_right fun hwait => hpc hwait.1
      obtain ⟨a', b', e', hstep, hb, hcalls, h'⟩ := h.step hw hpc ha
      obtain ⟨rfl, herror⟩ := Prod.mk.inj (hs.symm.trans hb)
      obtain rfl := Ending.error?_eq_none.1 herror.symm
      obtain ⟨last', hlast, htrails⟩ := ih h'
      rw [hcalls]
      exact ⟨last', .step ha hstep hlast, htrails⟩

end Follows

/-- **Programs do not depend on places.** Take a program that a machine accepts, and insert an
instruction without labels that does nothing, not before the start address. If there is room for it,
the longer program is accepted too. From the same memory and backend, one of the programs halts
after finitely many cycles, stops with a fault or leaves its end if the other one does, behind the
same calls, and with the same registers, memory, flags, measurement results and backend. The longer
program does not take fewer cycles. -/
theorem finishes_of_insertion {m a : Machine β} {program : List Instruction}
    (h : upload program m = (a, .ok ())) {i : Nat} (hi : i ≤ program.length)
    (hstart : m.config.startAddress ≤ i) (hsize : program.length + 1 ≤ m.config.programCapacity)
    {w : Instruction} (hw : w.Idle) :
    ∃ b, upload (program.insertIdx i w) m = (b, .ok ()) ∧
      (∀ calls a' e, a.Finishes calls a' e → ∃ b', b.Finishes calls b' e ∧ b'.Trails a') ∧
      ∀ calls b' e, b.Finishes calls b' e → ∃ a', a.Finishes calls a' e ∧ b'.Trails a' := by
  obtain ⟨labels, hcheck, rfl⟩ := upload_eq_ok.1 h
  obtain ⟨labels', hcheck'⟩ := exists_check_insertIdx hcheck hi hsize hw
  have hfollows := follows_of_check hcheck hcheck' hi hstart
  refine ⟨_, upload_eq_ok.2 ⟨labels', hcheck', rfl⟩, ?_, ?_⟩
  · intro calls a' e hends
    exact hfollows.finishes hw hends
  · intro calls b' e hends
    exact hfollows.finishes_back hw hends

/-- A wait between the load of a target register and the bundle that reads it. -/
theorem finishes_of_insertion_of_bundle :
    ∃ m b b' : Machine Ideal, upload [⟨[], .smis 0 [0]⟩, ⟨[], .qwait 5⟩,
        ⟨["go"], .bundle 1 [⟨"x", .single 0⟩]⟩, ⟨[], .stop⟩] m = (b, .ok ()) ∧
      b.Finishes [.gate "x" 0] b' .halted ∧ 3 ≤ b'.cycle := by
  obtain ⟨m, hmake⟩ : ∃ m : Machine Ideal,
      make { generalCount := 1, floatCount := 1, qubits := 1 } ⟨⟩ = .ok m := ⟨_, rfl⟩
  obtain ⟨a, hupload⟩ : ∃ a, upload [⟨[], .smis 0 [0]⟩, ⟨["go"], .bundle 1 [⟨"x", .single 0⟩]⟩,
      ⟨[], .stop⟩] m = (a, .ok ()) := by
    cases hmake
    exact ⟨_, rfl⟩
  have hrun : (runFor 3 a).2 = .ok (.halted 3) ∧ (runFor 3 a).1.cycle = 3 ∧
      runForCalls 3 a = [.gate "x" 0] := by
    cases hmake
    cases hupload
    decide +kernel
  obtain ⟨hresult, hcycle, hcalls⟩ := hrun
  have hends : a.Finishes [.gate "x" 0] (runFor 3 a).1 .halted := by
    refine finishes_iff.2 ⟨3, Prod.ext rfl ?_, hcalls⟩
    rw [hresult, Ending.result, hcycle]
    rfl
  have hconfig : m.config.startAddress ≤ 1 ∧ 4 ≤ m.config.programCapacity := by
    cases hmake
    decide
  obtain ⟨b, hb, hforth, -⟩ := finishes_of_insertion hupload (by decide : 1 ≤ 3) hconfig.1 hconfig.2
    (.qwait 5)
  obtain ⟨b', hb', htrails⟩ := hforth _ _ _ hends
  exact ⟨m, b, b', hb, hb', hcycle ▸ htrails.cycle⟩

end Machine

end Eqasm
