import Eqasm.Backend.Ideal
import Eqasm.Proofs.Backend.Circuits
import Eqasm.Proofs.Backend.Flips
import Eqasm.Proofs.Machine.Dispatch
import Eqasm.Proofs.Machine.Reachable
import Eqasm.Proofs.Machine.Sound
import Mathlib.Data.List.Pairwise

/-!
# Simultaneous operations

The operations of a bundle are carried out one after the other, but on bits it does not show: if no
qubit stands in the target registers of two of them, their order makes no difference
(`Machine.simultaneous_of_apart`).

On qubits that exist calls go well (`Datapath.issue_eq_foldl`), and what they do can be exchanged if
they are about different qubits, call by call (`Datapath.turn_comm`), list by list
(`Datapath.foldl_turn_comm`) and so operation by operation (`Datapath.foldl_turn_perm`).
-/

namespace Eqasm

/-! ## Quantum operations -/

namespace MicroOp

variable {t : TargetRegisters} {o o' : MicroOp}

/-- A qubit stands in the target register of a quantum operation. -/
def Addresses (t : TargetRegisters) (o : MicroOp) (q : Nat) : Prop :=
  match o.target with
  | .none => False
  | .single i => ∃ qubits, t.singles[i]? = some (some qubits) ∧ q ∈ qubits
  | .pair i => ∃ pairs, t.pairs[i]? = some (some pairs) ∧ ∃ p ∈ pairs, q = p.1 ∨ q = p.2

/-- No qubit stands in the target registers of both quantum operations. -/
def Apart (t : TargetRegisters) (o o' : MicroOp) : Prop :=
  ∀ q, ¬ (o.Addresses t q ∧ o'.Addresses t q)

instance : Std.Symm (Apart t) :=
  ⟨fun _ _ h q hq => h q hq.symm⟩

/-- The calls of a quantum operation whose target register can be read. -/
def dispatched (t : TargetRegisters) (o : MicroOp) : List Call :=
  (o.calls t).toOption.getD []

theorem calls_eq (h : o.Targeted t) : o.calls t = .ok (o.dispatched t) := by
  obtain ⟨calls, hcalls⟩ := exists_calls.2 h
  rw [dispatched, hcalls]
  rfl

/-- The calls of a quantum operation are about the qubits in its target register. -/
theorem Dispatches.addresses {calls : List Call} (h : o.Dispatches t calls) {c : Call}
    (hc : c ∈ calls) {q : Nat} (hq : q ∈ c.qubits) : o.Addresses t q := by
  cases h with
  | idle => cases hc
  | measureSingles _ h | gateSingles _ h =>
    obtain ⟨k, hk, rfl⟩ := List.mem_map.1 hc
    obtain rfl := List.mem_singleton.1 hq
    exact ⟨_, h, hk⟩
  | measurePairs _ h =>
    obtain ⟨p, hp, hc⟩ := List.mem_flatMap.1 hc
    refine ⟨_, h, p, hp, ?_⟩
    rcases List.mem_pair.1 hc with rfl | rfl
    · exact .inl (List.mem_singleton.1 hq)
    · exact .inr (List.mem_singleton.1 hq)
  | gatePairs _ h =>
    obtain ⟨p, hp, rfl⟩ := List.mem_map.1 hc
    exact ⟨_, h, p, hp, List.mem_pair.1 hq⟩

/-- Quantum operations that are apart have calls for different qubits. -/
theorem Apart.disjoint (h : o.Apart t o') (ho : o.Targeted t) (ho' : o'.Targeted t) {c d : Call}
    (hc : c ∈ o.dispatched t) (hd : d ∈ o'.dispatched t) : c.qubits.Disjoint d.qubits :=
  fun q hq hq' => h q ⟨(dispatches_of_calls (calls_eq ho)).addresses hc hq,
    (dispatches_of_calls (calls_eq ho')).addresses hd hq'⟩

end MicroOp

theorem resolve_eq {t : TargetRegisters} {ops : List MicroOp} (h : ∀ o ∈ ops, o.Targeted t) :
    resolve t ops = .ok (ops.flatMap (·.dispatched t)) := by
  induction ops with
  | nil => rfl
  | cons o ops ih =>
    obtain ⟨ho, hops⟩ := List.forall_mem_cons.1 h
    rw [resolve, MicroOp.calls_eq ho, ih hops]
    rfl

/-! ## Calls on bits -/

namespace Datapath

/-- The datapath behind a call for qubits that exist. -/
def turn (s : Datapath BitFlip) (c : Call) : Datapath BitFlip :=
  { s with backend := s.backend.after c, results := (s.backend.reply c).record s.results }

variable {s : Datapath BitFlip}

/-- Calls change nothing but bits and results. -/
theorem foldl_turn_keeps (calls : List Call) (s : Datapath BitFlip) :
    calls.foldl turn s = { s with
      backend := (calls.foldl turn s).backend, results := (calls.foldl turn s).results } ∧
    (calls.foldl turn s).backend.bits.size = s.backend.bits.size ∧
    (calls.foldl turn s).results.size = s.results.size := by
  induction calls generalizing s with
  | nil => exact ⟨rfl, rfl, rfl⟩
  | cons c calls ih =>
    obtain ⟨hothers, hbits, hresults⟩ := ih (s.turn c)
    rw [List.foldl_cons]
    refine ⟨hothers, hbits.trans ?_, hresults.trans ?_⟩
    · rw [turn, BitFlip.size_after]
    · rw [turn, Reply.size_record]

/-- Calls for qubits that exist go well. -/
theorem issue_eq_foldl {calls : List Call}
    (h : ∀ c ∈ calls, ∀ q ∈ c.qubits, q < s.backend.bits.size) :
    s.issue calls = (calls.foldl turn s, .ok ()) := by
  induction calls generalizing s with
  | nil => rfl
  | cons c calls ih =>
    obtain ⟨hc, hcalls⟩ := List.forall_mem_cons.1 h
    rw [issue, perform_of_answer (BitFlip.answer_eq hc), BitFlip.check_reply]
    refine ih (s := s.turn c) fun d hd q hq => ?_
    rw [turn, BitFlip.size_after]
    exact hcalls d hd q hq

theorem turn_comm {c d : Call} (h : c.qubits.Disjoint d.qubits) (s : Datapath BitFlip) :
    (s.turn c).turn d = (s.turn d).turn c := by
  have hdc : d.qubits.Disjoint c.qubits := fun _ hq hq' => h hq' hq
  have hresults : ((s.backend.after c).reply d).record ((s.backend.reply c).record s.results) =
      ((s.backend.after d).reply c).record ((s.backend.reply d).record s.results) := by
    rw [BitFlip.reply_after hdc, BitFlip.reply_after h]
    exact Reply.record_comm (by simpa only [BitFlip.call_reply] using hdc) s.results
  simp only [turn, BitFlip.after_comm h, hresults]

/-- A call can be made before or behind calls for other qubits. -/
theorem foldl_turn_turn {c : Call} {calls : List Call}
    (h : ∀ d ∈ calls, c.qubits.Disjoint d.qubits) (s : Datapath BitFlip) :
    calls.foldl turn (s.turn c) = (calls.foldl turn s).turn c := by
  induction calls generalizing s with
  | nil => rfl
  | cons d calls ih =>
    obtain ⟨hd, hcalls⟩ := List.forall_mem_cons.1 h
    rw [List.foldl_cons, List.foldl_cons, turn_comm hd, ih hcalls]

/-- **Calls for some qubits can be made before or behind calls for others.** -/
theorem foldl_turn_comm {xs ys : List Call} (h : ∀ c ∈ xs, ∀ d ∈ ys, c.qubits.Disjoint d.qubits)
    (s : Datapath BitFlip) : ys.foldl turn (xs.foldl turn s) = xs.foldl turn (ys.foldl turn s) := by
  induction xs generalizing s with
  | nil => rfl
  | cons c xs ih =>
    obtain ⟨hc, hxs⟩ := List.forall_mem_cons.1 h
    rw [List.foldl_cons, List.foldl_cons, ih hxs, foldl_turn_turn hc]

end Datapath

/-! ## Bundles -/

namespace Datapath

variable {s : Datapath BitFlip} {ops ops' : List MicroOp}

/-- A bundle whose calls are for qubits that exist goes well. -/
theorem execute_bundle_eq (h : ∀ o ∈ ops, o.Targeted s.targets)
    (hwithin : ∀ calls, resolve s.targets ops = .ok calls →
      ∀ c ∈ calls, c.Within s.backend.bits.size) (pi : UInt32) :
    s.execute (.bundle pi ops) =
      ((ops.flatMap (·.dispatched s.targets)).foldl turn s, .ok .next) := by
  have hresolve := resolve_eq h
  have hcalls : ∀ c ∈ ops.flatMap (·.dispatched s.targets), ∀ q ∈ c.qubits,
      q < s.backend.bits.size :=
    fun c hc _ hq => (hwithin _ hresolve c hc).lt_of_mem hq
  simp only [execute, hresolve, issue_eq_foldl hcalls]

/-- Operations that are apart can be exchanged. -/
theorem foldl_turn_perm {t : TargetRegisters} (h : ∀ o ∈ ops, o.Targeted t)
    (hapart : ops.Pairwise (MicroOp.Apart t)) (hperm : ops.Perm ops') (s : Datapath BitFlip) :
    (ops.flatMap (·.dispatched t)).foldl turn s = (ops'.flatMap (·.dispatched t)).foldl turn s := by
  rw [List.foldl_flatMap, List.foldl_flatMap]
  refine hperm.foldl_eq' (fun o ho o' ho' s => ?_) s
  by_cases e : o = o'
  · rw [e]
  · have hapart := hapart.forall ho ho' e
    exact foldl_turn_comm (fun c hc d hd => hapart.disjoint (h o ho) (h o' ho') hc hd) s

/-- The datapath with another backend. -/
def withBackend {β γ : Type} (s : Datapath β) (b : γ) : Datapath γ :=
  { general := s.general
    floating := s.floating
    targets := s.targets
    memory := s.memory
    flags := s.flags
    results := s.results
    backend := b }

end Datapath

namespace Machine

/-- The machine with another backend. -/
def withBackend {β γ : Type} (m : Machine β) (b : γ) : Machine γ :=
  { config := m.config
    program := m.program
    labels := m.labels
    data := m.data.withBackend b
    pc := m.pc
    cycle := m.cycle
    halted := m.halted
    verbose := m.verbose }

/-- **The operations of a bundle are simultaneous.** On a backend with a bit for each qubit, and in
whatever state a machine can come to, a bundle whose target registers are all loaded goes well if no
qubit stands in the target registers of two of its operations. In all orders of its operations it
has the same effect: the same bits and the same results of measurements, and nothing else changes
but the cycle counter and the place in the program. -/
theorem simultaneous_of_apart {β : Type} [Backend β] {m : Machine β} (hm : m.Reachable)
    {b : BitFlip} (hb : b.bits.size = m.config.qubits) {ops : List MicroOp}
    (htargeted : ∀ o ∈ ops, o.Targeted m.data.targets)
    (hapart : ops.Pairwise (MicroOp.Apart m.data.targets)) :
    ∃ t : Datapath BitFlip,
      t = { m.data.withBackend b with backend := t.backend, results := t.results } ∧
      t.backend.bits.size = b.bits.size ∧ t.results.size = m.data.results.size ∧
      ∀ pi ops', ops.Perm ops' →
        (m.data.withBackend b).execute (.bundle pi ops') = (t, .ok .next) ∧
        ∀ program labels i, program[m.pc]? = some i → i.operation = .bundle pi ops' →
          m.halted = false →
          Machine.step { m.withBackend b with program, labels } =
            ({ m.withBackend b with
                program, labels, data := t, cycle := m.cycle + 1, pc := m.pc + 1 }, none) := by
  have htargets := hm.regular.data.targets
  have hexecute : ∀ pi ops', ops.Perm ops' → (m.data.withBackend b).execute (.bundle pi ops') =
      ((ops.flatMap (·.dispatched m.data.targets)).foldl .turn (m.data.withBackend b),
        .ok .next) := by
    intro pi ops' hperm
    have htargeted' : ∀ o ∈ ops', o.Targeted m.data.targets :=
      fun o ho => htargeted o (hperm.mem_iff.2 ho)
    rw [Datapath.foldl_turn_perm htargeted hapart hperm]
    refine Datapath.execute_bundle_eq htargeted' (fun calls hcalls => ?_) pi
    rw [Datapath.withBackend, hb]
    exact Datapath.within_of_resolve htargets hcalls
  obtain ⟨hothers, hbits, hresults⟩ := Datapath.foldl_turn_keeps
    (ops.flatMap (·.dispatched m.data.targets)) (m.data.withBackend b)
  refine ⟨_, hothers, hbits, hresults, fun pi ops' hperm => ⟨hexecute pi ops' hperm, ?_⟩⟩
  intro program labels i hi hop hhalted
  have hnext := hexecute pi ops' hperm
  rw [← hop] at hnext
  exact Steps.step_eq (.next hhalted hi hnext)

/-- A flip, a controlled flip and a measurement, in two orders. -/
theorem simultaneous_of_apart_of_measure :
    ∃ (m : Machine Ideal) (t : Datapath BitFlip),
      (m.data.withBackend (BitFlip.zeros 4)).execute (.bundle 1
        [⟨"x", .single 0⟩, ⟨"cnot", .pair 0⟩, ⟨"measz", .single 1⟩]) = (t, .ok .next) ∧
      (m.data.withBackend (BitFlip.zeros 4)).execute (.bundle 1
        [⟨"measz", .single 1⟩, ⟨"x", .single 0⟩, ⟨"cnot", .pair 0⟩]) = (t, .ok .next) := by
  obtain ⟨m₀, hmake⟩ : ∃ m₀ : Machine Ideal,
    make { generalCount := 1, floatCount := 1, qubits := 4 } ⟨⟩ = .ok m₀ := ⟨_, rfl⟩
  obtain ⟨m, hm⟩ : ∃ m, m₀.acts [.append ⟨[], .smis 0 [0]⟩, .append ⟨[], .smit 0 [(1, 2)]⟩,
    .append ⟨[], .smis 1 [3]⟩, .step, .step, .step] = m := ⟨_, rfl⟩
  have hreachable : m.Reachable := hm ▸ (Reachable.make hmake).acts _
  have hloaded : m.data.targets.singles[0]? = some (some [0]) ∧
      m.data.targets.singles[1]? = some (some [3]) ∧
      m.data.targets.pairs[0]? = some (some [(1, 2)]) ∧ m.config.qubits = 4 := by
    cases hmake
    cases hm
    exact ⟨rfl, rfl, rfl, rfl⟩
  obtain ⟨hflip, hmeasure, hpair, hqubits⟩ := hloaded
  have hbits : (BitFlip.zeros 4).bits.size = m.config.qubits := by
    rw [hqubits]
    rfl
  have htargeted : ∀ o ∈ [⟨"x", .single 0⟩, ⟨"cnot", .pair 0⟩, ⟨"measz", .single 1⟩],
      MicroOp.Targeted m.data.targets o := by
    simp [MicroOp.Targeted, hflip, hmeasure, hpair]
  have hapart : [⟨"x", .single 0⟩, ⟨"cnot", .pair 0⟩, ⟨"measz", .single 1⟩].Pairwise
      (MicroOp.Apart m.data.targets) := by
    simp [MicroOp.Apart, MicroOp.Addresses, hflip, hmeasure, hpair]
  obtain ⟨t, -, -, -, ht⟩ := simultaneous_of_apart hreachable hbits htargeted hapart
  exact ⟨m, t, (ht 1 _ (.refl _)).1, (ht 1 _ (by decide)).1⟩

end Machine

end Eqasm
