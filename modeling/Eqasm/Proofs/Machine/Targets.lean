import Eqasm.Backend.Ideal
import Eqasm.Proofs.Machine.Atomicity
import Eqasm.Proofs.TargetRegisters.Sound

/-!
# Loading target registers

A load of a target register succeeds exactly if the register is there and may hold the list. Then
the register holds the list and every other register what it held; otherwise nothing changes
(`Datapath.loads_targets`).
-/

namespace Eqasm

namespace TargetRegisters

/-! ## Reading behind a load -/

section

variable {α : Type} {file : String} {registers : Array (Option α)} {i : Nat} {list : α}

theorem entries_set (h : i < registers.size) :
    entries file (registers.setIfInBounds i (some list)) i = .ok list :=
  entries_eq_ok.2 (Array.getElem?_setIfInBounds_self_of_lt h)

/-- Other registers are read as before, also those that are unset or not there. -/
theorem entries_set_of_ne {j : Nat} (h : j ≠ i) :
    entries file (registers.setIfInBounds i (some list)) j = entries file registers j := by
  rw [entries, entries, Array.getElem?_setIfInBounds_ne (Ne.symm h), Array.size_setIfInBounds]

end

/-- The registers with a list in register `i` of the file that `read` reads. The others of this
file, and those of the file that `other` reads, are read as before. -/
structure Holds {α γ : Type} (read : TargetRegisters → Nat → Except Fault α)
    (other : TargetRegisters → Nat → Except Fault γ) (t : TargetRegisters) (i : Nat) (list : α)
    (t' : TargetRegisters) : Prop where
  loaded : read t' i = .ok list
  kept : ∀ j, j ≠ i → read t' j = read t j
  other_kept : ∀ j, other t' j = other t j

variable {t : TargetRegisters} {i : Nat}

theorem exists_setSingle {qs : List Nat} (hi : i < t.singles.size)
    (hqs : IsList t.capacity (· < t.qubits) qs) :
    ∃ t', setSingle i qs t = (t', .ok ()) ∧ Holds readSingle readPair t i qs t' :=
  ⟨_, setSingle_eq_ok.2 ⟨hi, hqs, rfl⟩, entries_set hi, fun _ hj => entries_set_of_ne hj,
    fun _ => rfl⟩

theorem exists_setPair {ps : List (Nat × Nat)} (hi : i < t.pairs.size)
    (hps : IsList t.capacity (IsPair t.qubits) ps) :
    ∃ t', setPair i ps t = (t', .ok ()) ∧ Holds readPair readSingle t i ps t' :=
  ⟨_, setPair_eq_ok.2 ⟨hi, hps, rfl⟩, entries_set hi, fun _ hj => entries_set_of_ne hj,
    fun _ => rfl⟩

end TargetRegisters

namespace Datapath

variable {β : Type} [Backend β] {s : Datapath β}

open TargetRegisters Work

/-- An operation that loads a list into register `i` of a file. If the list is accepted, the
register holds it. Otherwise neither the registers nor anything else changes. -/
structure LoadsTarget {α γ : Type} (s : Datapath β) (o : Operation) (i : Nat) (list : α)
    (accepted : Prop) (load : Work TargetRegisters Fault Unit)
    (read : TargetRegisters → Nat → Except Fault α)
    (other : TargetRegisters → Nat → Except Fault γ) : Prop where
  accepts : accepted → ∃ t, load s.targets = (t, .ok ()) ∧ Holds read other s.targets i list t ∧
    s.execute o = ({ s with targets := t }, .ok .next)
  refuses : ¬ accepted → ∃ cause, load s.targets = (s.targets, .error cause) ∧
    s.execute o = (s, .error cause)

/-- Operations that load a register in steps which make one change or none. -/
theorem loadsTarget_of_load {α γ : Type} {o : Operation} {i : Nat} {list : α} {accepted : Prop}
    {load : Work TargetRegisters Fault Unit} {f : TargetRegisters → Except Fault TargetRegisters}
    {read : TargetRegisters → Nat → Except Fault α}
    {other : TargetRegisters → Nat → Except Fault γ} (ho : ∀ pi ops, o ≠ .bundle pi ops)
    (hflow : o.flow s.flags = .next) (hload : load = attempt f)
    (hcompute : s.compute o = load.exec s.targets >>= fun t => .ok { s with targets := t })
    (haccepted : accepted → ∃ t, load s.targets = (t, .ok ()) ∧
      Holds read other s.targets i list t)
    (hok : ∀ t, load s.targets = (t, .ok ()) → accepted) :
    s.LoadsTarget o i list accepted load read other := by
  constructor
  · intro h
    obtain ⟨t, ht, hholds⟩ := haccepted h
    rw [exec_eq_ok.2 ht] at hcompute
    refine ⟨t, ht, hholds, ?_⟩
    rw [execute_eq ho, hcompute, hflow]
    rfl
  · intro h
    rcases hl : load s.targets with ⟨t, cause | _⟩
    · obtain ⟨rfl, hf⟩ := attempt_eq_error.1 (hload ▸ hl)
      rw [exec_eq_error.2 (congrArg Prod.snd hl)] at hcompute
      refine ⟨cause, rfl, ?_⟩
      rw [execute_eq ho, hcompute]
      rfl
    · exact absurd (hok t hl) h

/-- **Exactly the lists that a target register may hold are loaded.** A load of a single-qubit
register succeeds if the register is there and the list is not empty, has no entry twice, is no
longer than the capacity and names only qubits that exist, and a load of a two-qubit register if
this holds of its pairs and no pair names one qubit twice. Then the register holds the list, and all
other registers of both files are read as before. Any other load fails, and nothing changes. -/
theorem loads_targets (s : Datapath β) (i : Nat) :
    (∀ qs, s.LoadsTarget (.smis i qs) i qs
      (i < s.targets.singles.size ∧ qs ≠ [] ∧ qs.length ≤ s.targets.capacity ∧ qs.Nodup ∧
        ∀ q ∈ qs, q < s.targets.qubits)
      (setSingle i qs) readSingle readPair) ∧
    ∀ ps, s.LoadsTarget (.smit i ps) i ps
      (i < s.targets.pairs.size ∧ ps ≠ [] ∧ ps.length ≤ s.targets.capacity ∧ ps.Nodup ∧
        ∀ p ∈ ps, p.1 < s.targets.qubits ∧ p.2 < s.targets.qubits ∧ p.1 ≠ p.2)
      (setPair i ps) readPair readSingle := by
  constructor
  · intro qs
    refine loadsTarget_of_load (by simp) rfl (setSingle_eq i qs) rfl ?_ fun t ht => ?_
    · rintro ⟨hi, hne, hlen, hnodup, hvalid⟩
      exact exists_setSingle hi ⟨hne, hnodup, hlen, hvalid⟩
    · obtain ⟨hi, hqs, -⟩ := setSingle_eq_ok.1 ht
      exact ⟨hi, hqs.ne_nil, hqs.length_le, hqs.nodup, hqs.valid⟩
  · intro ps
    refine loadsTarget_of_load (by simp) rfl (setPair_eq i ps) rfl ?_ fun t ht => ?_
    · rintro ⟨hi, hne, hlen, hnodup, hvalid⟩
      exact exists_setPair hi ⟨hne, hnodup, hlen, hvalid⟩
    · obtain ⟨hi, hps, -⟩ := setPair_eq_ok.1 ht
      exact ⟨hi, hps.ne_nil, hps.length_le, hps.nodup, hps.valid⟩

/-- Two pairs of the same qubits are accepted, and the other register stays unset. A pair that names
one qubit twice is refused. -/
theorem loads_targets_of_pairs :
    ∃ s t : Datapath Ideal, s.targets = .unset 1 2 2 3 ∧
      s.execute (.smit 1 [(0, 1), (1, 0)]) = (t, .ok .next) ∧
      t.targets.readPair 1 = .ok [(0, 1), (1, 0)] ∧
      t.targets.readPair 0 = .error (.unsetTargetRegister "t" 0) ∧
      ∃ cause, s.execute (.smit 1 [(2, 2)]) = (s, .error cause) := by
  let s : Datapath Ideal :=
    { general := ⟨"r", .word 0, #[]⟩
      floating := ⟨"f", .word 0, #[]⟩
      targets := .unset 1 2 2 3
      memory := ⟨0, ∅⟩
      flags := {}
      results := #[]
      backend := ⟨⟩ }
  obtain ⟨t, -, hholds, ht⟩ := ((loads_targets s 1).2 [(0, 1), (1, 0)]).accepts (by decide)
  obtain ⟨cause, -, hcause⟩ := ((loads_targets s 1).2 [(2, 2)]).refuses (by decide)
  exact ⟨s, _, rfl, ht, hholds.loaded, hholds.kept 0 Nat.zero_ne_one, cause, hcause⟩

end Datapath

end Eqasm
