import Eqasm.Proofs.Work
import Eqasm.TargetRegisters

/-!
# Sound target registers

Every loaded list is one that a register may hold: not empty, without an entry twice, within the
capacity, of qubits that exist, and without a pair of one qubit (`TargetRegisters.Sound`). Exactly
such lists are accepted (`setSingle_eq_ok`, `setPair_eq_ok`).
-/

namespace Eqasm

/-- Two distinct qubits that exist. -/
def IsPair (qubits : Nat) (p : Nat × Nat) : Prop :=
  p.1 < qubits ∧ p.2 < qubits ∧ p.1 ≠ p.2

namespace TargetRegisters

/-- A list that a register may hold. -/
structure IsList {α : Type} (capacity : Nat) (valid : α → Prop) (entries : List α) : Prop where
  ne_nil : entries ≠ []
  nodup : entries.Nodup
  length_le : entries.length ≤ capacity
  valid : ∀ a ∈ entries, valid a

/-- The sizes of the files, and what their registers hold. -/
structure Sound (t : TargetRegisters) (singles pairs capacity qubits : Nat) : Prop where
  singles_size : t.singles.size = singles
  pairs_size : t.pairs.size = pairs
  capacity_eq : t.capacity = capacity
  qubits_eq : t.qubits = qubits
  single_lists : ∀ qs, some qs ∈ t.singles → IsList capacity (· < qubits) qs
  pair_lists : ∀ ps, some ps ∈ t.pairs → IsList capacity (IsPair qubits) ps

/-! ## Checks -/

theorem checkRegister_eq_ok {file : String} {index count : Nat} :
    checkRegister file index count = .ok () ↔ index < count := by
  rw [checkRegister]
  split <;> simp_all

theorem checkList_eq_ok {α : Type} [DecidableEq α] {t : TargetRegisters} {file : String}
    {index : Nat} {entries : List α} : t.checkList file index entries = .ok () ↔
      entries ≠ [] ∧ entries.length ≤ t.capacity ∧ entries.Nodup := by
  rw [checkList]
  by_cases hne : entries = []
  · simp [hne]
  · by_cases hlen : t.capacity < entries.length
    · simp [hne, hlen, Nat.not_le.2 hlen]
    · by_cases hnodup : entries.Nodup
      · simp [hne, hlen, hnodup, Nat.not_lt.1 hlen]
      · simp [hne, hlen, hnodup]

theorem checkQubit_eq_ok {t : TargetRegisters} {q : Nat} :
    t.checkQubit q = .ok () ↔ q < t.qubits := by
  rw [checkQubit]
  split <;> simp_all

theorem checkPair_eq_ok {t : TargetRegisters} {p : Nat × Nat} :
    t.checkPair p = .ok () ↔ IsPair t.qubits p := by
  have hdistinct : (if p.1 = p.2 then throw (.degeneratePair p.1) else pure () : Except Fault Unit)
      = .ok () ↔ p.1 ≠ p.2 := by
    by_cases h : p.1 = p.2
    · simp [h, throw, throwThe, MonadExceptOf.throw]
    · simp [h, pure, Except.pure]
  rw [checkPair, except_bind_eq_ok, IsPair]
  constructor
  · rintro ⟨_, h₁, h⟩
    obtain ⟨_, h₂, h⟩ := except_bind_eq_ok.1 h
    exact ⟨checkQubit_eq_ok.1 h₁, checkQubit_eq_ok.1 h₂, hdistinct.1 h⟩
  · rintro ⟨h₁, h₂, h⟩
    exact ⟨(), checkQubit_eq_ok.2 h₁,
      except_bind_eq_ok.2 ⟨(), checkQubit_eq_ok.2 h₂, hdistinct.2 h⟩⟩

/-! ## Loading -/

theorem setSingle_eq (i : Nat) (qs : List Nat) : setSingle i qs = .attempt fun t => do
    checkRegister "s" i t.singles.size
    t.checkList "s" i qs
    qs.forM t.checkQubit
    return { t with singles := t.singles.setIfInBounds i (some qs) } := by
  simp only [setSingle, Work.look_bind_change, Work.look_bind_attempt]

theorem setPair_eq (i : Nat) (ps : List (Nat × Nat)) : setPair i ps = .attempt fun t => do
    checkRegister "t" i t.pairs.size
    t.checkList "t" i ps
    ps.forM t.checkPair
    return { t with pairs := t.pairs.setIfInBounds i (some ps) } := by
  simp only [setPair, Work.look_bind_change, Work.look_bind_attempt]

/-- Exactly the lists that a register may hold are loaded. -/
theorem setSingle_eq_ok {t t' : TargetRegisters} {i : Nat} {qs : List Nat} :
    setSingle i qs t = (t', .ok ()) ↔ i < t.singles.size ∧ IsList t.capacity (· < t.qubits) qs ∧
      t' = { t with singles := t.singles.setIfInBounds i (some qs) } := by
  rw [setSingle_eq, Work.attempt_eq_ok, except_bind_eq_ok]
  constructor
  · rintro ⟨_, hi, h⟩
    obtain ⟨_, hlist, h⟩ := except_bind_eq_ok.1 h
    obtain ⟨_, hqs, e⟩ := except_bind_eq_ok.1 h
    obtain ⟨hne, hlen, hnodup⟩ := checkList_eq_ok.1 hlist
    have hvalid : ∀ q ∈ qs, q < t.qubits := fun q hq => checkQubit_eq_ok.1 (forM_eq_ok.1 hqs q hq)
    cases e
    exact ⟨checkRegister_eq_ok.1 hi, ⟨hne, hnodup, hlen, hvalid⟩, rfl⟩
  · rintro ⟨hi, hqs, rfl⟩
    refine ⟨(), checkRegister_eq_ok.2 hi, ?_⟩
    refine except_bind_eq_ok.2 ⟨(), ?_, except_bind_eq_ok.2 ⟨(), ?_, rfl⟩⟩
    · exact checkList_eq_ok.2 ⟨hqs.ne_nil, hqs.length_le, hqs.nodup⟩
    · exact forM_eq_ok.2 fun q hq => checkQubit_eq_ok.2 (hqs.valid q hq)

/-- Exactly the lists of pairs that a register may hold are loaded. -/
theorem setPair_eq_ok {t t' : TargetRegisters} {i : Nat} {ps : List (Nat × Nat)} :
    setPair i ps t = (t', .ok ()) ↔ i < t.pairs.size ∧ IsList t.capacity (IsPair t.qubits) ps ∧
      t' = { t with pairs := t.pairs.setIfInBounds i (some ps) } := by
  rw [setPair_eq, Work.attempt_eq_ok, except_bind_eq_ok]
  constructor
  · rintro ⟨_, hi, h⟩
    obtain ⟨_, hlist, h⟩ := except_bind_eq_ok.1 h
    obtain ⟨_, hps, e⟩ := except_bind_eq_ok.1 h
    obtain ⟨hne, hlen, hnodup⟩ := checkList_eq_ok.1 hlist
    have hvalid : ∀ p ∈ ps, IsPair t.qubits p :=
      fun p hp => checkPair_eq_ok.1 (forM_eq_ok.1 hps p hp)
    cases e
    exact ⟨checkRegister_eq_ok.1 hi, ⟨hne, hnodup, hlen, hvalid⟩, rfl⟩
  · rintro ⟨hi, hps, rfl⟩
    refine ⟨(), checkRegister_eq_ok.2 hi, ?_⟩
    refine except_bind_eq_ok.2 ⟨(), ?_, except_bind_eq_ok.2 ⟨(), ?_, rfl⟩⟩
    · exact checkList_eq_ok.2 ⟨hps.ne_nil, hps.length_le, hps.nodup⟩
    · exact forM_eq_ok.2 fun p hp => checkPair_eq_ok.2 (hps.valid p hp)

section

variable {t t' : TargetRegisters} {singles pairs capacity qubits : Nat}

theorem sound_unset (singles pairs capacity qubits : Nat) :
    (unset singles pairs capacity qubits).Sound singles pairs capacity qubits := by
  refine ⟨by simp [unset], by simp [unset], rfl, rfl, fun qs h => ?_, fun ps h => ?_⟩
  · cases (Array.mem_replicate.1 h).2
  · cases (Array.mem_replicate.1 h).2

theorem Sound.setSingle (h : t.Sound singles pairs capacity qubits) {i : Nat} {qs : List Nat}
    (hs : TargetRegisters.setSingle i qs t = (t', .ok ())) :
    t'.Sound singles pairs capacity qubits := by
  obtain ⟨-, hqs, rfl⟩ := setSingle_eq_ok.1 hs
  rw [h.capacity_eq, h.qubits_eq] at hqs
  refine ⟨?_, h.pairs_size, h.capacity_eq, h.qubits_eq, fun rs hr => ?_, h.pair_lists⟩
  · simpa using h.singles_size
  · rcases Array.mem_or_eq_of_mem_setIfInBounds hr with hr | e
    · exact h.single_lists rs hr
    · cases e
      exact hqs

theorem Sound.setPair (h : t.Sound singles pairs capacity qubits) {i : Nat} {ps : List (Nat × Nat)}
    (hs : TargetRegisters.setPair i ps t = (t', .ok ())) :
    t'.Sound singles pairs capacity qubits := by
  obtain ⟨-, hps, rfl⟩ := setPair_eq_ok.1 hs
  rw [h.capacity_eq, h.qubits_eq] at hps
  refine ⟨h.singles_size, ?_, h.capacity_eq, h.qubits_eq, h.single_lists, fun rs hr => ?_⟩
  · simpa using h.pairs_size
  · rcases Array.mem_or_eq_of_mem_setIfInBounds hr with hr | e
    · exact h.pair_lists rs hr
    · cases e
      exact hps

theorem Sound.clear (h : t.Sound singles pairs capacity qubits) :
    t.clear.Sound singles pairs capacity qubits := by
  refine ⟨?_, ?_, h.capacity_eq, h.qubits_eq, fun qs hq => ?_, fun ps hp => ?_⟩
  · simpa [TargetRegisters.clear] using h.singles_size
  · simpa [TargetRegisters.clear] using h.pairs_size
  · obtain ⟨r, -, e⟩ := Array.mem_map.1 hq
    cases e
  · obtain ⟨r, -, e⟩ := Array.mem_map.1 hp
    cases e

/-! ## Reading -/

/-- The registers that can be read are those that are there and were loaded. -/
theorem entries_eq_ok {α : Type} {file : String} {registers : Array (Option α)} {i : Nat}
    {list : α} : entries file registers i = .ok list ↔ registers[i]? = some (some list) := by
  rw [entries]
  split <;> simp_all

theorem Sound.readSingle (h : t.Sound singles pairs capacity qubits) {i : Nat} {qs : List Nat}
    (hr : t.readSingle i = .ok qs) : IsList capacity (· < qubits) qs :=
  h.single_lists qs (Array.mem_of_getElem? (entries_eq_ok.1 hr))

theorem Sound.readPair (h : t.Sound singles pairs capacity qubits) {i : Nat}
    {ps : List (Nat × Nat)} (hr : t.readPair i = .ok ps) : IsList capacity (IsPair qubits) ps :=
  h.pair_lists ps (Array.mem_of_getElem? (entries_eq_ok.1 hr))

end

end TargetRegisters

end Eqasm
