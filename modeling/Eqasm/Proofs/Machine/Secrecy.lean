import Eqasm.Backend.BitFlip
import Eqasm.Backend.Ideal
import Eqasm.Proofs.Machine.Dispatch
import Eqasm.Proofs.Machine.Lockstep
import Eqasm.Proofs.Machine.Reachable
import Eqasm.Proofs.Machine.Refusal

/-!
# Outcomes that nobody reads

Measurement outcomes come into registers by the operation that reads them and in no other way. Two
machines with a program without this operation can have different backends and different results: as
long as the backends answer calls with outcomes of 0 and 1 (`Backend.Obliging`), registers, memory,
flags, errors and calls stay the same (`Machine.agrees_of_unread_results`).
-/

namespace Eqasm

/-! ## Backends -/

namespace Backend

variable {β : Type} [Backend β]

/-- A backend in a state with the property `P` answers every call for qubits that exist, with
outcomes of 0 and 1 only, and its next state has the property again. -/
def Obliging (P : β → Prop) (qubits : Nat) : Prop :=
  ∀ b c, P b → c.Within qubits → ∃ r b', answer b c = .ok (r, b') ∧ r.check = .ok () ∧ P b'

theorem Obliging.exists_serve {P : β → Prop} {qubits : Nat} (h : Obliging P qubits) {b : β}
    (hb : P b) {calls : List Call} (hcalls : ∀ c ∈ calls, c.Within qubits) :
    ∃ replies b', serve b calls = (replies, b', .ok ()) ∧ P b' := by
  induction calls generalizing b with
  | nil => exact ⟨[], b, rfl, hb⟩
  | cons c calls ih =>
    obtain ⟨r, b', hanswer, hcheck, hb'⟩ := h b c hb (hcalls c (by simp))
    obtain ⟨replies, last, hserve, hlast⟩ := ih hb' fun d hd => hcalls d (by simp [hd])
    exact ⟨r :: replies, last, by rw [serve_of_valid hanswer hcheck, hserve], hlast⟩

/-- If all calls go well, the backend receives all of them. -/
theorem Serves.received_eq {b last : β} {calls received : List Call} {replies : List Reply}
    (h : Serves b calls received replies last (.ok ())) : received = calls := by
  cases h with
  | answered => rfl

end Backend

theorem Ideal.obliging (qubits : Nat) : Backend.Obliging (fun _ : Ideal => True) qubits := by
  rintro b (⟨name, q⟩ | ⟨name, p, q⟩ | q) - -
  · exact ⟨_, _, rfl, rfl, trivial⟩
  · exact ⟨_, _, rfl, rfl, trivial⟩
  · exact ⟨_, _, rfl, rfl, trivial⟩

/-- The bit-flip backend answers calls for the qubits that it has. -/
theorem BitFlip.obliging (qubits : Nat) :
    Backend.Obliging (fun b : BitFlip => b.bits.size = qubits) qubits := by
  rintro b (⟨name, q⟩ | ⟨name, p, q⟩ | q) rfl hc
  · obtain ⟨b', hb', hsize⟩ := exists_gate name hc
    exact ⟨.gate name q, b', by rw [Backend.answer, hb']; rfl, rfl, hsize⟩
  · obtain ⟨b', hb', hsize⟩ := exists_pairGate name hc.1 hc.2.1
    exact ⟨.pairGate name p q, b', by rw [Backend.answer, hb']; rfl, rfl, hsize⟩
  · obtain ⟨outcome, hb', hle⟩ := exists_measure hc
    exact ⟨.measure q outcome, b, by rw [Backend.answer, hb']; rfl, by simp [Reply.check, hle], rfl⟩

/-! ## Datapaths -/

namespace Datapath

variable {β γ : Type} [Backend β] [Backend γ] {P : β → Prop} {Q : γ → Prop} {config : Config}

omit [Backend β] [Backend γ] in
/-- Datapaths that agree, with target registers of the configuration and with backends that have the
properties `P` and `Q`. -/
structure Veiled (P : β → Prop) (Q : γ → Prop) (config : Config) (s : Datapath β)
    (t : Datapath γ) : Prop extends Agrees s t where
  sound : s.targets.Sound config.singleCount config.pairCount config.targetCapacity config.qubits
  left : P s.backend
  right : Q t.backend

/-- The calls of a bundle go well on an obliging backend. -/
theorem exists_execute_bundle (hP : Backend.Obliging P config.qubits) {s : Datapath β}
    (hs : P s.backend)
    (ht : s.targets.Sound config.singleCount config.pairCount config.targetCapacity config.qubits)
    {ops : List MicroOp} {calls : List Call} (h : resolve s.targets ops = .ok calls)
    (pi : UInt32) : ∃ results b, s.calls (.bundle pi ops) = calls ∧ P b ∧
      s.execute (.bundle pi ops) = ({ s with results, backend := b }, .ok .next) := by
  obtain ⟨replies, b, hserve, hb⟩ := hP.exists_serve hs (within_of_resolve ht h)
  have hserves := s.serves_made calls
  rw [hserve] at hserves
  refine ⟨replies.foldl Reply.record s.results, b, ?_, hb, ?_⟩
  · simpa only [Datapath.calls, h] using hserves.received_eq
  · simp only [execute, h, issue_eq_serve, hserve]

/-- A bundle makes the same calls on both sides; what becomes of them is in results and backends. -/
theorem Veiled.execute_bundle (hP : Backend.Obliging P config.qubits)
    (hQ : Backend.Obliging Q config.qubits) {s : Datapath β} {t : Datapath γ}
    (h : Veiled P Q config s t) (pi : UInt32) (ops : List MicroOp) :
    ∃ s' t' r, s.execute (.bundle pi ops) = (s', r) ∧ t.execute (.bundle pi ops) = (t', r) ∧
      s.calls (.bundle pi ops) = t.calls (.bundle pi ops) ∧ Veiled P Q config s' t' := by
  have hsound := h.sound
  cases hcalls : resolve s.targets ops with
  | error cause =>
    have hcalls' : resolve t.targets ops = .error cause := h.targets ▸ hcalls
    exact ⟨s, t, .error cause, by simp only [execute, hcalls], by simp only [execute, hcalls'],
      by simp only [Datapath.calls, hcalls, hcalls'], h⟩
  | ok calls =>
    have hcalls' : resolve t.targets ops = .ok calls := h.targets ▸ hcalls
    obtain ⟨rs, b, hmade, hPb, hs⟩ := exists_execute_bundle hP h.left hsound hcalls pi
    rw [h.targets] at hsound
    obtain ⟨rt, c, hmade', hQc, ht⟩ := exists_execute_bundle hQ h.right hsound hcalls' pi
    exact ⟨_, _, _, hs, ht, hmade.trans hmade'.symm, { h with left := hPb, right := hQc }⟩

/-- **Obliging backends stay out of sight**, if no operation reads a result. -/
theorem lockstep_veiled (hP : Backend.Obliging P config.qubits)
    (hQ : Backend.Obliging Q config.qubits) :
    Lockstep (Veiled P Q config) fun o => ¬ o.ReadsResult := by
  refine lockstep_of_agrees (fun h => h.toAgrees) ?_ (fun _ ho hr => absurd hr ho)
    (fun h => h.execute_bundle hP hQ) (fun h => { h with toAgrees := h.toAgrees.restart })
    fun h => { h with toAgrees := h.toAgrees.clear, sound := h.sound.clear }
  intro s t s' t' h hagrees heffect heffect'
  refine ⟨hagrees, heffect.targets_sound h.sound, ?_, ?_⟩
  · rw [heffect.results_backend.2]
    exact h.left
  · rw [heffect'.results_backend.2]
    exact h.right

end Datapath

/-! ## Machines -/

namespace Machine

variable {β γ : Type} [Backend β] [Backend γ]

/-- **Outcomes reach registers only where they are read.** Two machines have the same program, in
which no operation reads a measurement result, and agree in everything but results and backends.
Both backends answer all calls for the qubits of the machine with outcomes of 0 and 1. Then after
any number of cycles, and behind every history in which no operation that reads a result is
installed, the machines agree again, have answered with the same errors and have made the same
calls. -/
theorem agrees_of_unread_results {m : Machine β} {m' : Machine γ} (hm : m.Reachable)
    (hm' : m'.Reachable) {P : β → Prop} {Q : γ → Prop}
    (hP : Backend.Obliging P m.config.qubits) (hQ : Backend.Obliging Q m.config.qubits)
    (hbackend : P m.data.backend) (hbackend' : Q m'.data.backend) (hconfig : m.config = m'.config)
    (hprogram : m.program = m'.program) (hdata : m.data.Agrees m'.data) (hpc : m.pc = m'.pc)
    (hcycle : m.cycle = m'.cycle) (hhalted : m.halted = m'.halted)
    (hunread : ∀ i ∈ m.program, ¬ i.operation.ReadsResult) {history : List Action}
    (hhistory : ∀ a ∈ history, a.Installs fun o => ¬ o.ReadsResult) :
    Alike Datapath.Agrees (m.acts history) (m'.acts history) ∧
      m.answers history = m'.answers history ∧ m.handed history = m'.handed history := by
  have hlabels : m.labels = m'.labels := by
    have hlabelled := hm'.regular.labelled
    rw [Labelled, ← hprogram] at hlabelled
    exact hm.regular.labelled.unique hlabelled
  have hveiled : Alike (Datapath.Veiled P Q m.config) m m' :=
    ⟨hconfig, hprogram, hlabels, ⟨hdata, hm.regular.data.targets, hbackend, hbackend'⟩, hpc, hcycle,
      hhalted⟩
  obtain ⟨hacts, hanswers, hhanded⟩ :=
    hveiled.acts (Datapath.lockstep_veiled hP hQ) hunread hhistory
  exact ⟨hacts.mono fun _ _ h => h.toAgrees, hanswers, hhanded⟩

/-- A qubit that is flipped and measured, with a backend that flips it and with one that does not.
Results become 1 and 0, and all else stays the same. -/
theorem agrees_of_unread_results_of_flip :
    ∃ (m : Machine BitFlip) (m' : Machine Ideal),
      Alike Datapath.Agrees (m.acts (.replicate 4 .step)) (m'.acts (.replicate 4 .step)) ∧
      m.handed (.replicate 4 .step) = m'.handed (.replicate 4 .step) ∧
      (m.acts (.replicate 4 .step)).data.results = #[1] ∧
      (m'.acts (.replicate 4 .step)).data.results = #[0] := by
  obtain ⟨m₀, hmake⟩ : ∃ m : Machine BitFlip,
      make { generalCount := 1, floatCount := 1, qubits := 1 } (.zeros 1) = .ok m := ⟨_, rfl⟩
  obtain ⟨m₀', hmake'⟩ : ∃ m : Machine Ideal,
      make { generalCount := 1, floatCount := 1, qubits := 1 } ⟨⟩ = .ok m := ⟨_, rfl⟩
  obtain ⟨m, hm⟩ : ∃ m, m₀.act (.upload [⟨[], .smis 0 [0]⟩, ⟨[], .bundle 1 [⟨"x", .single 0⟩]⟩,
      ⟨[], .bundle 1 [⟨"measure", .single 0⟩]⟩, ⟨[], .stop⟩]) = m := ⟨_, rfl⟩
  obtain ⟨m', hm'⟩ : ∃ m, m₀'.act (.upload [⟨[], .smis 0 [0]⟩, ⟨[], .bundle 1 [⟨"x", .single 0⟩]⟩,
      ⟨[], .bundle 1 [⟨"measure", .single 0⟩]⟩, ⟨[], .stop⟩]) = m := ⟨_, rfl⟩
  have hreachable : m.Reachable := hm ▸ .act (.make hmake) _
  have hreachable' : m'.Reachable := hm' ▸ .act (.make hmake') _
  have hqubits : m.config.qubits = 1 ∧ m.data.backend.bits.size = 1 := by
    cases hmake
    cases hm
    exact ⟨rfl, rfl⟩
  have hunread : ∀ i ∈ m.program, ¬ i.operation.ReadsResult := by
    cases hmake
    cases hm
    change ∀ i ∈ #[⟨[], .smis 0 [0]⟩, ⟨[], .bundle 1 [⟨"x", .single 0⟩]⟩,
      ⟨[], .bundle 1 [⟨"measure", .single 0⟩]⟩, (⟨[], .stop⟩ : Instruction)], _
    simp [Operation.ReadsResult]
  have hsteps : ∀ a ∈ List.replicate 4 Action.step, a.Installs fun o => ¬ o.ReadsResult := by
    simp [Action.Installs]
  have hresults : (m.acts (.replicate 4 .step)).data.results = #[1] ∧
      (m'.acts (.replicate 4 .step)).data.results = #[0] := by
    cases hmake
    cases hmake'
    cases hm
    cases hm'
    decide +kernel
  have hsame : m.config = m'.config ∧ m.program = m'.program ∧ m.data.Agrees m'.data ∧
      m.pc = m'.pc ∧ m.cycle = m'.cycle ∧ m.halted = m'.halted := by
    cases hmake
    cases hmake'
    cases hm
    cases hm'
    exact ⟨rfl, rfl, ⟨rfl, rfl, rfl, ⟨rfl, fun _ _ => rfl⟩, rfl⟩, rfl, rfl, rfl⟩
  obtain ⟨hconfig, hprogram, hdata, hpc, hcycle, hhalted⟩ := hsame
  have hflip := BitFlip.obliging m.config.qubits
  obtain ⟨halike, -, hhanded⟩ := agrees_of_unread_results hreachable hreachable' hflip
    (Ideal.obliging _) (hqubits.2.trans hqubits.1.symm) trivial hconfig hprogram hdata hpc hcycle
    hhalted hunread hsteps
  exact ⟨m, m', halike, hhanded, hresults⟩

end Machine

end Eqasm
