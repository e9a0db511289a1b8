import Eqasm.Proofs.Backend.Replies
import Eqasm.Proofs.Machine.Failure

/-!
# Dispatch of bundles

Which calls a bundle stands for (`MicroOp.Dispatches`), and what becomes of them: all its target
registers are looked up first, and then the calls are made in order, as far as the backend answers
them with outcomes of 0 or 1 (`Datapath.dispatch_of_bundle`).
-/

namespace Eqasm

/-! ## Calls -/

/-- The name of a quantum operation that measures. -/
def IsMeasurementName (name : String) : Prop :=
  name = "measure" ∨ name = "measz"

/-- The calls that a quantum operation stands for. Without a target it stands for none, whatever its
name; with a target, for those of the entries of the target register in the order of the list. -/
inductive MicroOp.Dispatches (t : TargetRegisters) : MicroOp → List Call → Prop
  | idle (name : String) : Dispatches t ⟨name, .none⟩ []
  | measureSingles {name : String} {i : Nat} {qubits : List Nat} (hname : IsMeasurementName name)
    (h : t.singles[i]? = some (some qubits)) :
    Dispatches t ⟨name, .single i⟩ (qubits.map .measure)
  | gateSingles {name : String} {i : Nat} {qubits : List Nat} (hname : ¬ IsMeasurementName name)
    (h : t.singles[i]? = some (some qubits)) :
    Dispatches t ⟨name, .single i⟩ (qubits.map (.gate name))
  /-- Of a pair, the first qubit is measured first. -/
  | measurePairs {name : String} {i : Nat} {pairs : List (Nat × Nat)}
    (hname : IsMeasurementName name) (h : t.pairs[i]? = some (some pairs)) :
    Dispatches t ⟨name, .pair i⟩ (pairs.flatMap fun p => [.measure p.1, .measure p.2])
  | gatePairs {name : String} {i : Nat} {pairs : List (Nat × Nat)}
    (hname : ¬ IsMeasurementName name) (h : t.pairs[i]? = some (some pairs)) :
    Dispatches t ⟨name, .pair i⟩ (pairs.map fun p => .pairGate name p.1 p.2)

theorem MicroOp.isMeasurement_iff {o : MicroOp} : o.isMeasurement ↔ IsMeasurementName o.name := by
  simp [isMeasurement, IsMeasurementName]

theorem MicroOp.dispatches_of_calls {t : TargetRegisters} {o : MicroOp} {calls : List Call}
    (h : o.calls t = .ok calls) : o.Dispatches t calls := by
  obtain ⟨name, target⟩ := o
  cases target with
  | none =>
    cases h
    exact .idle name
  | single i =>
    obtain ⟨qubits, hread, e⟩ := except_bind_eq_ok.1 h
    cases e
    have hqubits := TargetRegisters.entries_eq_ok.1 hread
    by_cases hname : IsMeasurementName name
    · simp only [isMeasurement_iff, hname, if_true]
      exact .measureSingles hname hqubits
    · simp only [isMeasurement_iff, hname, if_false]
      exact .gateSingles hname hqubits
  | pair i =>
    obtain ⟨pairs, hread, e⟩ := except_bind_eq_ok.1 h
    cases e
    have hpairs := TargetRegisters.entries_eq_ok.1 hread
    by_cases hname : IsMeasurementName name
    · simp only [isMeasurement_iff, hname, if_true]
      exact .measurePairs hname hpairs
    · simp only [isMeasurement_iff, hname, if_false, ← List.map_eq_flatMap]
      exact .gatePairs hname hpairs

/-- The calls of a bundle are those of its operations in order. -/
theorem dispatches_of_resolve {t : TargetRegisters} {ops : List MicroOp} {calls : List Call}
    (h : resolve t ops = .ok calls) :
    ∃ lists, List.Forall₂ (MicroOp.Dispatches t) ops lists ∧ calls = lists.flatten := by
  induction ops generalizing calls with
  | nil =>
    cases h
    exact ⟨[], .nil, rfl⟩
  | cons o ops ih =>
    obtain ⟨first, hfirst, h⟩ := except_bind_eq_ok.1 h
    obtain ⟨rest, hrest, e⟩ := except_bind_eq_ok.1 h
    cases e
    obtain ⟨lists, hlists, rfl⟩ := ih hrest
    exact ⟨first :: lists, .cons (MicroOp.dispatches_of_calls hfirst) hlists, rfl⟩

namespace Datapath

variable {β : Type} [Backend β] {s : Datapath β}

/-! ## Replies -/

theorem perform_of_refusal {c : Call} {cause : Fault}
    (h : Backend.answer s.backend c = .error cause) : s.perform c = (s, .error cause) := by
  cases c with
  | gate name q | pairGate name p q | measure q =>
    rw [perform]
    split <;> rename_i hc <;> rw [Backend.answer, hc] at h <;> cases h
    rfl

/-- The result of a measurement is recorded if it is 0 or 1. -/
theorem perform_of_answer {c : Call} {r : Reply} {b : β}
    (h : Backend.answer s.backend c = .ok (r, b)) :
    s.perform c = ({ s with backend := b, results := r.record s.results }, r.check) := by
  cases c with
  | gate name q | pairGate name p q =>
    rw [perform]
    split <;> rename_i hc <;> rw [Backend.answer, hc] at h <;> cases h
    rfl
  | measure q =>
    rw [perform]
    split <;> rename_i hc <;> rw [Backend.answer, hc] at h <;> cases h
    split <;> simp [Reply.record, Reply.check, *]

/-- Calls are made as the backend serves them, and the outcomes are recorded. -/
theorem issue_eq_serve (s : Datapath β) (calls : List Call) :
    s.issue calls =
      ({ s with
          backend := (Backend.serve s.backend calls).2.1
          results := (Backend.serve s.backend calls).1.foldl Reply.record s.results },
        (Backend.serve s.backend calls).2.2) := by
  induction calls generalizing s with
  | nil => rfl
  | cons c calls ih =>
    rw [issue]
    cases ha : Backend.answer s.backend c with
    | error cause => rw [perform_of_refusal ha, Backend.serve_of_refusal ha]; rfl
    | ok answer =>
      obtain ⟨r, b⟩ := answer
      rw [perform_of_answer ha]
      cases hr : r.check with
      | error cause => rw [Backend.serve_of_invalid ha hr]; rfl
      | ok =>
        rw [Backend.serve_of_valid ha hr]
        exact ih { s with backend := b, results := r.record s.results }

/-- The calls that are made are those that the backend receives. -/
theorem serves_made (s : Datapath β) (calls : List Call) :
    Backend.Serves s.backend calls (s.made calls) (Backend.serve s.backend calls).1
      (Backend.serve s.backend calls).2.1 (Backend.serve s.backend calls).2.2 := by
  induction calls generalizing s with
  | nil => exact .answered (.nil _) rfl (by simp [Backend.serve])
  | cons c calls ih =>
    rw [made]
    cases ha : Backend.answer s.backend c with
    | error cause =>
      rw [perform_of_refusal ha, Backend.serve_of_refusal ha]
      exact .refused (.nil _) (by simp) (by simp) ha
    | ok answer =>
      obtain ⟨r, b⟩ := answer
      obtain rfl := Backend.call_of_answer ha
      rw [perform_of_answer ha]
      cases hr : r.check with
      | error cause =>
        rw [Backend.serve_of_invalid ha hr]
        obtain ⟨q, n, rfl, hn, rfl⟩ := Reply.check_eq_error.1 hr
        have hreplies : Backend.Answers s.backend ([] ++ [.measure q n]) b := .cons ha (.nil b)
        have hprefix : [].map Reply.call ++ [.measure q] <+: .measure q :: calls := by simp
        exact .invalid hreplies hprefix (by simp) hn
      | ok =>
        rw [Backend.serve_of_valid ha hr]
        exact (ih { s with backend := b, results := r.record s.results }).cons ha hr

/-! ## Bundles -/

/-- **Dispatch of a bundle.** If a target register of a bundle is not there or was not loaded, the
bundle fails and the backend receives no call. Otherwise the calls to be made are those of the
operations in order. The backend receives them up to the first that is answered with an outcome
other than 0 and 1, which is then the fault, or that it refuses. Nothing but the backend and results
change: no result of a qubit that is not measured, and if all calls go well, the results of the
others are the last outcomes. -/
theorem dispatch_of_bundle (s : Datapath β) (pi : UInt32) (ops : List MicroOp) :
    ((∃ o ∈ ops, ¬ o.Targeted s.targets) →
      s.calls (.bundle pi ops) = [] ∧ ∃ cause, s.execute (.bundle pi ops) = (s, .error cause)) ∧
    ((∀ o ∈ ops, o.Targeted s.targets) → ∃ lists replies t r,
      List.Forall₂ (MicroOp.Dispatches s.targets) ops lists ∧
      s.execute (.bundle pi ops) = (t, r.map fun _ => .next) ∧
      Backend.Serves s.backend lists.flatten (s.calls (.bundle pi ops)) replies t.backend r ∧
      t = { s with backend := t.backend, results := t.results } ∧
      (∀ q, .measure q ∉ lists.flatten → t.results[q]? = s.results[q]?) ∧
      (r = .ok () → ∀ q < s.results.size, .measure q ∈ lists.flatten →
        ∃ n, Reply.LastOutcome q n replies ∧ t.results[q]? = some n)) := by
  constructor
  · rintro ⟨o, ho, hmissing⟩
    cases hcalls : resolve s.targets ops with
    | ok calls => exact absurd (exists_resolve.1 ⟨calls, hcalls⟩ o ho) hmissing
    | error cause => exact ⟨by simp only [calls, hcalls], cause, by simp only [execute, hcalls]⟩
  · intro hops
    obtain ⟨calls, hcalls⟩ := exists_resolve.2 hops
    obtain ⟨lists, hlists, rfl⟩ := dispatches_of_resolve hcalls
    have hserves := s.serves_made lists.flatten
    have hissue := s.issue_eq_serve lists.flatten
    rcases hserve : Backend.serve s.backend lists.flatten with ⟨replies, b, r⟩
    rw [hserve] at hserves hissue
    refine ⟨lists, replies,
      { s with backend := b, results := replies.foldl Reply.record s.results }, r, hlists, ?_, ?_,
      rfl, fun q hq => ?_, fun hr q hq hmem => ?_⟩
    · simp only [execute, hcalls, hissue]
      cases r <;> rfl
    · simpa only [Datapath.calls, hcalls] using hserves
    · exact Reply.getElem?_foldl_record_of_noOutcome (hserves.noOutcome hq)
    · subst hr
      obtain ⟨n, hn⟩ := hserves.exists_lastOutcome hmem
      exact ⟨n, hn, Reply.getElem?_foldl_record_of_lastOutcome hn hq⟩

/-- A bundle whose second measurement gives 2, so that its gates are not applied. -/
theorem dispatch_of_bundle_of_measure :
    ∃ (s : Datapath Recording) (lists : List (List Call)) (replies : List Reply)
      (t : Datapath Recording),
      List.Forall₂ (MicroOp.Dispatches s.targets) [⟨"measz", .single 0⟩, ⟨"x", .single 0⟩] lists ∧
      s.execute (.bundle 1 [⟨"measz", .single 0⟩, ⟨"x", .single 0⟩]) =
        (t, .error (.invalidMeasurement 1 2)) ∧
      Backend.Serves s.backend lists.flatten [.measure 0, .measure 1] replies t.backend
        (.error (.invalidMeasurement 1 2)) := by
  obtain ⟨m, hmake⟩ : ∃ m, Machine.make { generalCount := 1, floatCount := 1, qubits := 2 }
      ({ script := [1, 2] } : Recording) = .ok m := ⟨_, rfl⟩
  obtain ⟨s, hs⟩ : ∃ s, (m.acts [.append ⟨[], .smis 0 [0, 1]⟩, .step]).data = s := ⟨_, rfl⟩
  have htargeted : ∀ o ∈ [⟨"measz", .single 0⟩, ⟨"x", .single 0⟩],
      MicroOp.Targeted s.targets o := by
    have hread : s.targets.singles[0]? = some (some [0, 1]) := by
      cases hmake
      cases hs
      rfl
    simp [MicroOp.Targeted, hread]
  obtain ⟨lists, replies, t, r, hlists, hexecute, hserves, -⟩ :=
    (dispatch_of_bundle s 1 _).2 htargeted
  have hcalls : s.calls (.bundle 1 [⟨"measz", .single 0⟩, ⟨"x", .single 0⟩]) =
      [.measure 0, .measure 1] := by
    cases hmake
    cases hs
    decide +kernel
  have hr : r = .error (.invalidMeasurement 1 2) := by
    have hfault : (s.execute (.bundle 1 [⟨"measz", .single 0⟩, ⟨"x", .single 0⟩])).2 =
        .error (.invalidMeasurement 1 2) := by
      cases hmake
      cases hs
      decide +kernel
    rw [hexecute] at hfault
    cases r with
    | error cause => exact congrArg _ (Except.error.inj hfault)
    | ok => cases hfault
  rw [hcalls, hr] at hserves
  exact ⟨s, lists, replies, t, hlists, by rw [hexecute, hr]; rfl, hserves⟩

end Datapath

end Eqasm
