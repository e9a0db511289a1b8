import Eqasm.Proofs.Bank.Sound
import Eqasm.Proofs.Machine.Labels
import Eqasm.Proofs.Memory.Bytes
import Eqasm.Proofs.TargetRegisters.Sound

/-!
# Sound machines

What holds of a machine after every history (`Machine.Sound.acts`): its parts keep the sizes of the
configuration, registers keep their width, target registers hold lists of qubits that exist, results
are 0 or 1, the program counter stays near the program, and a halted machine stands behind a stop.
So the backend is only handed calls for qubits that exist (`Machine.Sound.within_handed`).
-/

namespace Eqasm

/-- The qubits of a call exist, and those of a pair are distinct. -/
def Call.Within (qubits : Nat) : Call → Prop
  | .gate _ q | .measure q => q < qubits
  | .pairGate _ p q => IsPair qubits (p, q)

/-! ## Datapaths -/

namespace Datapath

variable {β : Type} {config : Config}

/-- What holds of the datapath of a machine. -/
structure Sound (s : Datapath β) (config : Config) : Prop where
  general : s.general.Sound config.generalCount config.generalWidth
  floating : s.floating.Sound config.floatCount config.floatWidth
  targets : s.targets.Sound config.singleCount config.pairCount config.targetCapacity config.qubits
  memory_size : s.memory.size = config.memorySize
  results_size : s.results.size = config.qubits
  results_le : ∀ r ∈ s.results, r ≤ 1
  always : s.flags.get .always = true
  never : s.flags.get .never = false

/-- Every write keeps a datapath sound. -/
theorem Sound.effect {s t : Datapath β} (h : s.Sound config) (he : s.Effect t) :
    t.Sound config := by
  cases he with
  | none => exact h
  | general hw => exact { h with general := h.general.write hw }
  | floating hw => exact { h with floating := h.floating.write hw }
  | single hw => exact { h with targets := h.targets.setSingle hw }
  | pair hw => exact { h with targets := h.targets.setPair hw }
  | flags => exact { h with }
  | byte hw => exact { h with memory_size := (Memory.size_of_writeByte hw).trans h.memory_size }
  | word hw => exact { h with memory_size := (Memory.size_of_writeWord hw).trans h.memory_size }
  | image hw => exact { h with memory_size := (Memory.size_of_loadImage hw).trans h.memory_size }
  | clearGeneral => exact { h with general := h.general.clear }
  | clearFloating => exact { h with floating := h.floating.clear }

theorem Sound.restart {s : Datapath β} (h : s.Sound config) : s.restart.Sound config := by
  refine { h with results_size := ?_, results_le := fun r hr => ?_, always := rfl, never := rfl }
  · simpa [Datapath.restart] using h.results_size
  · obtain ⟨-, -, rfl⟩ := Array.mem_map.1 hr
    exact Nat.zero_le 1

theorem Sound.clear {s : Datapath β} (h : s.Sound config) : s.clear.Sound config :=
  { h with general := h.general.clear, floating := h.floating.clear, targets := h.targets.clear }

variable [Backend β]

theorem Sound.perform {s t : Datapath β} (h : s.Sound config) {c : Call} {r : Except Fault Unit}
    (hc : s.perform c = (t, r)) : t.Sound config := by
  cases r with
  | error cause =>
    obtain ⟨b, rfl⟩ := perform_error hc
    exact { h with }
  | ok =>
    rcases perform_ok hc with ⟨b, rfl, -⟩ | ⟨b, q, outcome, -, hle, rfl⟩
    · exact { h with }
    · refine { h with results_size := ?_, results_le := fun r hr => ?_ }
      · simpa using h.results_size
      · rcases Array.mem_or_eq_of_mem_setIfInBounds hr with hr | rfl
        · exact h.results_le r hr
        · exact hle

theorem Sound.issue {s t : Datapath β} (h : s.Sound config) {calls : List Call}
    {r : Except Fault Unit} (hc : s.issue calls = (t, r)) : t.Sound config := by
  induction calls generalizing s with
  | nil =>
    cases hc
    exact h
  | cons c calls ih =>
    rw [Datapath.issue] at hc
    split at hc
    · rename_i u hu
      exact ih (h.perform hu) hc
    · rename_i u cause hu
      cases hc
      exact h.perform hu

/-- Every execution keeps a datapath sound, also one that fails. -/
theorem Sound.execute {s t : Datapath β} (h : s.Sound config) {o : Operation}
    {r : Except Fault Flow} (he : s.execute o = (t, r)) : t.Sound config := by
  cases executes_of_execute he with
  | failed | unresolved => exact h
  | done _ hcompute => exact h.effect (effect_of_compute hcompute)
  | interrupted _ hissue | issued _ hissue => exact h.issue hissue

/-! ## Calls -/

theorem within_of_calls {t : TargetRegisters} {singles pairs capacity qubits : Nat}
    (ht : t.Sound singles pairs capacity qubits) {o : MicroOp} {calls : List Call}
    (h : o.calls t = .ok calls) : ∀ c ∈ calls, c.Within qubits := by
  obtain ⟨name, target⟩ := o
  cases target with
  | none =>
    cases h
    simp
  | single i =>
    obtain ⟨qs, hqs, e⟩ := except_bind_eq_ok.1 h
    cases e
    have hvalid := (ht.readSingle hqs).valid
    refine List.forall_mem_map.2 fun q hq => ?_
    split <;> exact hvalid q hq
  | pair i =>
    obtain ⟨ps, hps, e⟩ := except_bind_eq_ok.1 h
    cases e
    have hvalid := (ht.readPair hps).valid
    intro c hc
    obtain ⟨⟨p, q⟩, hp, hc⟩ := List.mem_flatMap.1 hc
    have hpair := hvalid (p, q) hp
    by_cases hm : MicroOp.isMeasurement ⟨name, .pair i⟩
    · have hc : c = .measure p ∨ c = .measure q := by simpa [hm] using hc
      rcases hc with rfl | rfl
      · exact hpair.1
      · exact hpair.2.1
    · obtain rfl : c = .pairGate name p q := by simpa [hm] using hc
      exact hpair

theorem within_of_resolve {t : TargetRegisters} {singles pairs capacity qubits : Nat}
    (ht : t.Sound singles pairs capacity qubits) {ops : List MicroOp} {calls : List Call}
    (h : resolve t ops = .ok calls) : ∀ c ∈ calls, c.Within qubits := by
  induction ops generalizing calls with
  | nil =>
    cases h
    simp
  | cons o ops ih =>
    obtain ⟨xs, hxs, h⟩ := except_bind_eq_ok.1 h
    obtain ⟨ys, hys, e⟩ := except_bind_eq_ok.1 h
    cases e
    exact List.forall_mem_append.2 ⟨within_of_calls ht hxs, ih hys⟩

theorem mem_of_mem_made {s : Datapath β} {calls : List Call} {c : Call} (h : c ∈ s.made calls) :
    c ∈ calls := by
  induction calls generalizing s with
  | nil => exact h
  | cons d calls ih =>
    rw [made] at h
    split at h
    · rcases List.mem_cons.1 h with rfl | h
      · simp
      · exact List.mem_cons_of_mem _ (ih h)
    · simp [List.mem_singleton.1 h]

/-- An operation calls for qubits that exist only. -/
theorem Sound.within_calls {s : Datapath β} (h : s.Sound config) (o : Operation) :
    ∀ c ∈ s.calls o, c.Within config.qubits := by
  intro c hc
  cases o with
  | bundle pi ops =>
    rw [Datapath.calls] at hc
    split at hc
    · rename_i calls hcalls
      exact within_of_resolve h.targets hcalls c (mem_of_mem_made hc)
    · cases hc
  | _ => cases hc

end Datapath

/-! ## Machines -/

namespace Machine

variable {β : Type} {config : Config}

/-- What holds of a machine. -/
structure Sound (m : Machine β) (config : Config) : Prop where
  /-- Only the bound of runs may change. -/
  config_eq : m.config = { config with maxCycles := m.config.maxCycles }
  data : m.data.Sound config
  pc_le : m.pc ≤ max config.startAddress m.program.size
  halted : m.halted = true → 1 ≤ m.pc ∧ ∃ i, m.program[m.pc - 1]? = some i ∧ i.operation = .stop

/-- A machine is made if cells can have the widths of its registers. -/
theorem exists_make (hg : 0 < config.generalWidth ∧ config.generalWidth ≤ 64)
    (hf : 0 < config.floatWidth ∧ config.floatWidth ≤ 64) (backend : β) :
    ∃ m, make config backend = .ok m ∧ m.Sound config ∧ m.data.backend = backend := by
  obtain ⟨general, hgeneral, hgs⟩ := Bank.exists_make "r" config.generalCount hg
  obtain ⟨floating, hfloating, hfs⟩ := Bank.exists_make "f" config.floatCount hf
  refine ⟨_, by rw [make, hgeneral, hfloating]; rfl, ?_, rfl⟩
  refine ⟨rfl, ?_, Nat.le_max_left _ _, fun h => (nomatch h)⟩
  refine ⟨hgs, hfs, TargetRegisters.sound_unset _ _ _ _, rfl, by simp, fun r hr => ?_, rfl, rfl⟩
  rw [(Array.mem_replicate.1 hr).2]
  exact Nat.zero_le 1

theorem Sound.startAddress_eq {m : Machine β} (h : m.Sound config) :
    m.config.startAddress = config.startAddress := by
  rw [h.config_eq]

theorem Sound.restart {m : Machine β} (h : m.Sound config) : m.restart.Sound config := by
  refine ⟨h.config_eq, h.data.restart, ?_, fun hh => (nomatch hh)⟩
  rw [← h.startAddress_eq]
  exact Nat.le_max_left _ _

/-- A reset leaves a sound machine, with any program. -/
theorem Sound.reset {m : Machine β} (h : m.Sound config) (program : Array Instruction)
    (labels : LabelTable) : Sound { m.reset with program, labels } config := by
  refine ⟨h.config_eq, h.data.restart.clear, ?_, fun hh => (nomatch hh)⟩
  rw [← h.startAddress_eq]
  exact Nat.le_max_left _ _

theorem Sound.append {m : Machine β} (h : m.Sound config) (i : Instruction) (labels : LabelTable) :
    Sound { m with program := m.program.push i, labels } config := by
  refine ⟨h.config_eq, h.data, ?_, fun hh => ?_⟩
  · have := h.pc_le
    simp only [Array.size_push]
    omega
  · obtain ⟨hpc, j, hj, hstop⟩ := h.halted hh
    refine ⟨hpc, j, ?_, hstop⟩
    obtain ⟨hlt, -⟩ := Array.getElem?_eq_some_iff.1 hj
    have hne : m.pc - 1 ≠ m.program.size := Nat.ne_of_lt hlt
    rw [Array.getElem?_push, if_neg hne, hj]

variable [Backend β]

theorem Sound.step {m : Machine β} (h : m.Sound config) (hl : m.Labelled) :
    m.step.1.Sound config := by
  rcases hm : m.step with ⟨m', e⟩
  cases steps_of_step hm with
  | rest | outside => exact h
  | fault _ _ he | lost _ _ he => exact { h with data := h.data.execute he }
  | next hh hi he =>
    have hpc : m.pc < m.program.size := (Array.getElem?_eq_some_iff.1 hi).1
    refine ⟨h.config_eq, h.data.execute he, ?_, fun hhalted => ?_⟩
    · simp only
      omega
    · simp [hh] at hhalted
  | stop hh hi he =>
    have hpc : m.pc < m.program.size := (Array.getElem?_eq_some_iff.1 hi).1
    have hstop := Operation.flow_eq_stop.1 (Datapath.flow_of_execute he).symm
    refine ⟨h.config_eq, h.data.execute he, ?_, fun _ => ⟨by simp, _, by simpa using hi, hstop⟩⟩
    simp only
    omega
  | jump hh hi he hk =>
    refine ⟨h.config_eq, h.data.execute he, ?_, fun hhalted => ?_⟩
    · obtain ⟨j, hj, -⟩ := hl.find?_eq_some.1 hk
      rw [Array.getElem?_toList] at hj
      have hlt := (Array.getElem?_eq_some_iff.1 hj).1
      simp only
      omega
    · simp [hh] at hhalted

/-- **Every history keeps a machine sound.** -/
theorem Sound.acts {m : Machine β} (h : m.Sound config) (hl : m.Labelled) (history : List Action) :
    (m.acts history).Sound config := by
  -- the labels keep jumps inside the program, so both invariants go together
  refine (acts_induction (P := fun m => m.Sound config ∧ m.Labelled) ?_ ?_ ?_ ?_ ?_ ?_ ?_ ⟨h, hl⟩
    history).1
  · exact fun m _ _ h hcheck => ⟨h.1.reset _ _, labelled_of_check hcheck⟩
  · exact fun m _ _ h hadd => ⟨h.1.append _ _, h.2.append hadd⟩
  · exact fun m h => ⟨h.1.step h.2, h.2.step⟩
  · exact fun m h => ⟨h.1.restart, h.2⟩
  · exact fun m h => ⟨h.1.reset _ _, LabelTable.describes_empty⟩
  · exact fun m n h => ⟨{ h.1 with config_eq := by rw [setMaxCycles, h.1.config_eq] }, h.2⟩
  · exact fun m data h he => ⟨{ h.1 with data := h.1.data.effect he }, h.2⟩

/-! ## Calls -/

theorem Sound.within_stepCalls {m : Machine β} (h : m.Sound config) :
    ∀ c ∈ m.stepCalls, c.Within config.qubits := by
  intro c hc
  rw [stepCalls, stepNotes] at hc
  split at hc
  · cases hc
  · split at hc
    · cases hc
    · exact h.data.within_calls _ c hc

theorem Sound.within_runForCalls {m : Machine β} (h : m.Sound config) (hl : m.Labelled) (n : Nat) :
    ∀ c ∈ runForCalls n m, c.Within config.qubits := by
  induction n generalizing m with
  | zero => simp [runForCalls, runForNotes]
  | succ n ih =>
    have hsound := h.step hl
    have hlabelled := hl.step
    rw [runForCalls_succ]
    split
    · simp
    · refine List.forall_mem_append.2 ⟨h.within_stepCalls, ?_⟩
      split
      · rename_i hm
        rw [hm] at hsound hlabelled
        exact ih hsound hlabelled
      · simp

/-- **A backend is only handed calls for qubits that exist.** -/
theorem Sound.within_handed {m : Machine β} (h : m.Sound config) (hl : m.Labelled)
    (history : List Action) : ∀ c ∈ m.handed history, c.Within config.qubits := by
  induction history generalizing m with
  | nil => simp [handed, notes]
  | cons a history ih =>
    rw [handed_cons, List.forall_mem_append]
    refine ⟨?_, ih (h.acts hl [a]) (hl.acts [a])⟩
    cases a with
    | step => exact h.within_stepCalls
    | run => exact h.within_runForCalls hl _
    | _ => simp [callsOf, notesOf]

end Machine

end Eqasm
