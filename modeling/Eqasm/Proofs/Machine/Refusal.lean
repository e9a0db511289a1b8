import Eqasm.Backend.BitFlip
import Eqasm.Proofs.Machine.Faults

/-!
# Calls that are not refused

A machine whose bit-flip backend has the qubits of the configuration is never refused a call
(`Machine.sound_of_history`): its calls are for qubits that exist, and operations other than bundles
make none.
-/

namespace Eqasm

/-! ## Bit flips -/

namespace BitFlip

variable {b : BitFlip} {p q : Nat}

theorem exists_read (h : q < b.bits.size) : ∃ bit, b.read q = .ok bit :=
  ⟨b.bits[q], by rw [read, Array.getElem?_eq_getElem h]⟩

theorem exists_flip (h : q < b.bits.size) :
    ∃ b', b.flip q = .ok b' ∧ b'.bits.size = b.bits.size := by
  obtain ⟨bit, hbit⟩ := exists_read h
  exact ⟨⟨b.bits.setIfInBounds q !bit⟩, by rw [flip, hbit]; rfl, by simp⟩

theorem exists_swap (hp : p < b.bits.size) (hq : q < b.bits.size) :
    ∃ b', b.swap p q = .ok b' ∧ b'.bits.size = b.bits.size := by
  obtain ⟨x, hx⟩ := exists_read hp
  obtain ⟨y, hy⟩ := exists_read hq
  exact ⟨⟨(b.bits.setIfInBounds p y).setIfInBounds q x⟩, by rw [swap, hx, hy]; rfl, by simp⟩

theorem exists_gate (name : String) (h : q < b.bits.size) :
    ∃ b', Backend.gate b name q = .ok b' ∧ b'.bits.size = b.bits.size := by
  by_cases hname : name ∈ flips
  · obtain ⟨b', hb', hsize⟩ := exists_flip h
    exact ⟨b', by simp [Backend.gate, hname, hb'], hsize⟩
  · exact ⟨b, by simp [Backend.gate, hname], rfl⟩

theorem exists_pairGate (name : String) (hp : p < b.bits.size) (hq : q < b.bits.size) :
    ∃ b', Backend.pairGate b name p q = .ok b' ∧ b'.bits.size = b.bits.size := by
  obtain ⟨bit, hbit⟩ := exists_read hp
  obtain ⟨flipped, hflip, hflipped⟩ := exists_flip hq
  obtain ⟨swapped, hswap, hswapped⟩ := exists_swap hp hq
  by_cases hcontrolled : name ∈ controlledFlips
  · cases bit with
    | false => exact ⟨b, by simp [Backend.pairGate, hcontrolled, hbit, bind, Except.bind, pure,
        Except.pure], rfl⟩
    | true => exact ⟨flipped, by simp [Backend.pairGate, hcontrolled, hbit, bind, Except.bind,
        hflip], hflipped⟩
  · by_cases hname : name = "swap"
    · subst hname
      exact ⟨swapped, by simp [Backend.pairGate, hcontrolled, hswap], hswapped⟩
    · exact ⟨b, by simp [Backend.pairGate, hcontrolled, hname, pure, Except.pure], rfl⟩

theorem exists_measure (h : q < b.bits.size) :
    ∃ outcome, Backend.measure b q = .ok (outcome, b) ∧ outcome ≤ 1 := by
  obtain ⟨bit, hbit⟩ := exists_read h
  refine ⟨if bit then 1 else 0, by simp [Backend.measure, hbit, bind, Except.bind, pure,
    Except.pure], ?_⟩
  split
  · exact Nat.le_refl 1
  · exact Nat.zero_le 1

end BitFlip

namespace Datapath

variable {s : Datapath BitFlip}

/-- A call for qubits that exist goes well, and the qubits stay. -/
theorem exists_perform {c : Call} (h : c.Within s.backend.bits.size) :
    ∃ t, s.perform c = (t, .ok ()) ∧ t.backend.bits.size = s.backend.bits.size := by
  cases c with
  | gate name q =>
    obtain ⟨b, hb, hsize⟩ := BitFlip.exists_gate name h
    exact ⟨{ s with backend := b }, by simp [perform, hb], hsize⟩
  | pairGate name p q =>
    obtain ⟨b, hb, hsize⟩ := BitFlip.exists_pairGate name h.1 h.2.1
    exact ⟨{ s with backend := b }, by simp [perform, hb], hsize⟩
  | measure q =>
    obtain ⟨outcome, hb, hle⟩ := BitFlip.exists_measure h
    exact ⟨{ s with results := s.results.setIfInBounds q outcome }, by simp [perform, hb, hle], rfl⟩

theorem exists_issue {calls : List Call} (h : ∀ c ∈ calls, c.Within s.backend.bits.size) :
    ∃ t, s.issue calls = (t, .ok ()) ∧ t.backend.bits.size = s.backend.bits.size := by
  induction calls generalizing s with
  | nil => exact ⟨s, rfl, rfl⟩
  | cons c calls ih =>
    obtain ⟨t, ht, hsize⟩ := exists_perform (h c (by simp))
    have hrest : ∀ d ∈ calls, d.Within t.backend.bits.size := by
      rw [hsize]
      exact fun d hd => h d (by simp [hd])
    obtain ⟨u, hu, hu'⟩ := ih hrest
    exact ⟨u, by rw [issue, ht]; exact hu, hu'.trans hsize⟩

/-- The calls of a bundle on a sound datapath go well with a backend that has the qubits of the
configuration. -/
theorem Sound.exists_issue {config : Config} (h : s.Sound config)
    (hsize : s.backend.bits.size = config.qubits) {ops : List MicroOp} {calls : List Call}
    (hcalls : resolve s.targets ops = .ok calls) :
    ∃ t, s.issue calls = (t, .ok ()) ∧ t.backend.bits.size = config.qubits := by
  have hwithin := within_of_resolve h.targets hcalls
  rw [← hsize] at hwithin ⊢
  exact Datapath.exists_issue hwithin

/-- No execution on a sound datapath is refused by a backend with the qubits of the configuration,
and the qubits stay. -/
theorem Sound.execute_bitFlip {config : Config} (h : s.Sound config)
    (hsize : s.backend.bits.size = config.qubits) (o : Operation) :
    (s.execute o).1.backend.bits.size = config.qubits ∧
      ∀ q, (s.execute o).2 ≠ .error (.backendRefused q) := by
  rcases he : s.execute o with ⟨t, r⟩
  cases executes_of_execute he with
  | failed _ hcompute =>
    refine ⟨hsize, fun q e => not_isRefusal_of_compute hcompute ?_⟩
    cases e
    trivial
  | done _ hcompute =>
    refine ⟨?_, by simp⟩
    rw [← hsize, (effect_of_compute hcompute).results_backend.2]
  | unresolved hresolve =>
    refine ⟨hsize, fun q e => (gives_resolve Fault.admits_not_isRefusal _ _).error hresolve ?_⟩
    cases e
    trivial
  | interrupted hresolve hissue =>
    obtain ⟨u, hu, -⟩ := h.exists_issue hsize hresolve
    cases hissue.symm.trans hu
  | issued hresolve hissue =>
    obtain ⟨u, hu, husize⟩ := h.exists_issue hsize hresolve
    cases hissue.symm.trans hu
    exact ⟨husize, by simp⟩

end Datapath

/-! ## Machines -/

namespace Machine

/-- A sound machine whose backend has the qubits of the configuration. -/
structure Equipped (m : Machine BitFlip) (config : Config) : Prop where
  sound : m.Sound config
  labelled : m.Labelled
  qubits : m.data.backend.bits.size = config.qubits

variable {config : Config}

theorem Equipped.step {m : Machine BitFlip} (h : m.Equipped config) :
    m.step.1.Equipped config ∧
      ∀ pc cycle q, m.step.2 ≠ some (.fault pc cycle (.backendRefused q)) := by
  have hsound := h.sound.step h.labelled
  have hlabelled := h.labelled.step
  rcases hm : m.step with ⟨m', e⟩
  rw [hm] at hsound hlabelled
  cases steps_of_step hm with
  | rest | outside => exact ⟨h, by simp⟩
  | @fault i _ _ _ _ he =>
    obtain ⟨hsize, hne⟩ := h.sound.data.execute_bitFlip h.qubits i.operation
    rw [he] at hsize hne
    refine ⟨⟨hsound, hlabelled, hsize⟩, fun pc cycle q e => ?_⟩
    cases e
    exact hne q rfl
  | @next i _ _ _ he | @stop i _ _ _ he | @jump i _ _ _ _ _ he | @lost i _ _ _ _ he =>
    have hsize := (h.sound.data.execute_bitFlip h.qubits i.operation).1
    rw [he] at hsize
    exact ⟨⟨hsound, hlabelled, hsize⟩, by simp⟩

theorem Equipped.runFor_ne {m : Machine BitFlip} (h : m.Equipped config) (n : Nat) :
    ∀ pc cycle q, (runFor n m).2 ≠ .error (.fault pc cycle (.backendRefused q)) := by
  induction n generalizing m with
  | zero => simp [runFor]
  | succ n ih =>
    obtain ⟨hstep, hne⟩ := h.step
    rw [runFor]
    split
    · simp
    · split <;> rename_i hm <;> rw [hm] at hstep hne
      · exact ih hstep
      · intro pc cycle q e
        exact hne pc cycle q (congrArg some (Except.error.inj e))

theorem Equipped.acts {m : Machine BitFlip} (h : m.Equipped config) (history : List Action) :
    (m.acts history).Equipped config := by
  refine acts_induction (P := fun m => m.Equipped config) ?_ ?_ ?_ ?_ ?_ ?_ ?_ h history
  · exact fun m _ _ h hcheck => ⟨h.sound.reset _ _, labelled_of_check hcheck, h.qubits⟩
  · exact fun m _ _ h hadd => ⟨h.sound.append _ _, h.labelled.append hadd, h.qubits⟩
  · exact fun m h => h.step.1
  · exact fun m h => ⟨h.sound.restart, h.labelled, h.qubits⟩
  · exact fun m h => ⟨h.sound.reset _ _, LabelTable.describes_empty, h.qubits⟩
  · exact fun m n h => ⟨h.sound.acts h.labelled [.setMaxCycles n], h.labelled, h.qubits⟩
  · intro m data h he
    refine ⟨{ h.sound with data := h.sound.data.effect he }, h.labelled, ?_⟩
    simp only [he.results_backend.2, h.qubits]

/-- **The state of a machine.** Of whatever widths that cells can have a machine is made, and with
whatever backend and after whatever history: the machine is sound, and the backend was handed calls
for qubits that exist only. So the bit-flip backend with these qubits never refuses a call. -/
theorem sound_of_history (hg : 0 < config.generalWidth ∧ config.generalWidth ≤ 64)
    (hf : 0 < config.floatWidth ∧ config.floatWidth ≤ 64) :
    (∀ (β : Type) [Backend β] (backend : β), ∃ m, make config backend = .ok m ∧ ∀ history,
      (m.acts history).Sound config ∧ ∀ c ∈ m.handed history, c.Within config.qubits) ∧
    ∃ m, make config (BitFlip.zeros config.qubits) = .ok m ∧ ∀ history pc cycle q,
      (m.acts history).step.2 ≠ some (.fault pc cycle (.backendRefused q)) ∧
      (m.acts history).run.2 ≠ .error (.fault pc cycle (.backendRefused q)) := by
  constructor
  · intro β _ backend
    obtain ⟨m, hmake, hsound, -⟩ := exists_make hg hf backend
    have hlabelled := (empty_of_make hmake).2
    exact ⟨m, hmake, fun history => ⟨hsound.acts hlabelled history,
      hsound.within_handed hlabelled history⟩⟩
  · obtain ⟨m, hmake, hsound, hbackend⟩ := exists_make hg hf (BitFlip.zeros config.qubits)
    have hequipped : m.Equipped config :=
      ⟨hsound, (empty_of_make hmake).2, by rw [hbackend]; simp [BitFlip.zeros]⟩
    refine ⟨m, hmake, fun history pc cycle q => ⟨?_, ?_⟩⟩
    · exact (hequipped.acts history).step.2 pc cycle q
    · exact (hequipped.acts history).runFor_ne _ pc cycle q

/-- The reference machine. -/
theorem sound_of_history_default :
    ∃ m, make {} (BitFlip.zeros 7) = .ok m ∧ ∀ history pc cycle q,
      (m.acts history).step.2 ≠ some (.fault pc cycle (.backendRefused q)) ∧
      (m.acts history).run.2 ≠ .error (.fault pc cycle (.backendRefused q)) := by
  have h : 0 < ({} : Config).generalWidth ∧ ({} : Config).generalWidth ≤ 64 := by decide
  exact (sound_of_history h h).2

end Machine

end Eqasm
