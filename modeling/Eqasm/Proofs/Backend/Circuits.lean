import Eqasm.Proofs.Backend.Flips
import Eqasm.Proofs.Machine.Sound

/-!
# Circuits of bit flips

A circuit is a list of calls for qubits that exist, with two different ones in every pair. Each call
is answered (`BitFlip.answered_of_within`), and each gate undoes itself (`BitFlip.after_after`): it
leaves alone the bits that decide what it does. So the gates of a circuit in reverse order lead back
to the bits before it (`BitFlip.foldl_after_reverse`), whatever is measured in between.
-/

namespace Eqasm

namespace Call

/-- Measurements are the calls that apply no gate. -/
def isGate : Call → Bool
  | gate _ _ | pairGate _ _ _ => true
  | measure _ => false

theorem Within.lt_of_mem {c : Call} {n q : Nat} (h : c.Within n) (hq : q ∈ c.qubits) : q < n := by
  cases c with
  | gate | measure => exact List.mem_singleton.1 hq ▸ h
  | pairGate name p p' =>
    rcases List.mem_pair.1 hq with rfl | rfl
    · exact h.1
    · exact h.2.1

end Call

namespace BitFlip

variable {b b' : BitFlip} {c : Call}

/-! ## One call -/

/-- What becomes of a call: it is answered, the bits change as its name says, those of other qubits
stay as they are, and a measurement gives the bit of its qubit and changes none. -/
structure Answered (b : BitFlip) (c : Call) (r : Reply) (b' : BitFlip) : Prop where
  answer_eq : Backend.answer b c = .ok (r, b')
  after_eq : b' = b.after c
  others : ∀ k ∉ c.qubits, b'.bits[k]? = b.bits[k]?
  measured : ∀ q, c = .measure q →
    b' = b ∧ ∃ bit, b.bits[q]? = some bit ∧ r = .measure q (if bit then 1 else 0)

theorem getElem?_eq_bit {q : Nat} (h : q < b.bits.size) : b.bits[q]? = some (b.bit q) := by
  rw [bit, Array.getElem?_eq_getElem h]
  rfl

theorem answered_of_within (h : c.Within b.bits.size) : b.Answered c (b.reply c) (b.after c) where
  answer_eq := answer_eq fun _ hq => h.lt_of_mem hq
  after_eq := rfl
  others _ hk := b.getElem?_after hk
  measured q hc := by
    subst hc
    exact ⟨rfl, b.bit q, getElem?_eq_bit h, rfl⟩

/-! ## Gates undo themselves -/

theorem eq_of_bit_eq (hsize : b.bits.size = b'.bits.size) (h : ∀ k, b.bit k = b'.bit k) :
    b = b' := by
  have hbits : b.bits = b'.bits := by
    refine Array.ext_getElem? fun k => ?_
    by_cases hk : k < b.bits.size
    · rw [getElem?_eq_bit hk, getElem?_eq_bit (hsize ▸ hk), h]
    · rw [Array.getElem?_eq_none (Nat.not_lt.1 hk),
        Array.getElem?_eq_none (hsize ▸ Nat.not_lt.1 hk)]
  exact congrArg mk hbits

theorem bit_set {q : Nat} (h : q < b.bits.size) (bit : Bool) (k : Nat) :
    (b.set q bit).bit k = if q = k then bit else b.bit k := by
  rw [BitFlip.bit, getElem?_set, if_pos h]
  split <;> rfl

/-- A bit that is flipped twice is as before. -/
theorem set_not_set_not {q : Nat} (h : q < b.bits.size) (hb' : b' = b.set q !b.bit q) :
    b'.set q (!b'.bit q) = b := by
  have hsize : b'.bits.size = b.bits.size := by rw [hb', size_set]
  have hbit (k : Nat) : b'.bit k = if q = k then !b.bit q else b.bit k := by rw [hb', bit_set h]
  refine eq_of_bit_eq (by rw [size_set, hsize]) fun k => ?_
  rw [bit_set (hsize ▸ h), hbit, hbit, if_pos rfl, Bool.not_not]
  split
  · next hk => rw [hk]
  · rfl

/-- Bits that are exchanged twice are as before. -/
theorem set_set_set_set {p q : Nat} (hp : p < b.bits.size) (hq : q < b.bits.size)
    (hb' : b' = (b.set p (b.bit q)).set q (b.bit p)) :
    (b'.set p (b'.bit q)).set q (b'.bit p) = b := by
  have hsize : b'.bits.size = b.bits.size := by rw [hb', size_set, size_set]
  have hbit (k : Nat) :
      b'.bit k = if q = k then b.bit p else if p = k then b.bit q else b.bit k := by
    rw [hb', bit_set (by rwa [size_set]), bit_set hp]
  refine eq_of_bit_eq (by rw [size_set, size_set, hsize]) fun k => ?_
  rw [bit_set (by rwa [size_set, hsize]), bit_set (hsize ▸ hp), hbit q, hbit p, hbit k]
  grind

/-- **A gate is its own inverse.** -/
theorem after_after (h : c.Within b.bits.size) : (b.after c).after c = b := by
  cases c with
  | gate name q =>
    by_cases hname : name ∈ flips
    · simp only [after, if_pos hname]
      exact set_not_set_not h rfl
    · simp only [after, if_neg hname]
  | pairGate name p q =>
    obtain ⟨hp, hq, hne⟩ := h
    by_cases hname : name ∈ controlledFlips
    · -- the bit that decides is not the one that is flipped
      have hcontrol : (b.set q !b.bit q).bit p = b.bit p := by rw [bit_set hq, if_neg hne.symm]
      by_cases hbit : b.bit p = true
      · simp only [after, if_pos hname, if_pos hbit, hcontrol]
        exact set_not_set_not hq rfl
      · simp only [after, if_pos hname, if_neg hbit]
    · by_cases hswap : name = "swap"
      · simp only [after, if_neg hname, if_pos hswap]
        exact set_set_set_set hp hq rfl
      · simp only [after, if_neg hname, if_neg hswap]
  | measure q => rfl

/-! ## Circuits -/

/-- The bits behind calls are the same without the measurements. -/
theorem foldl_after_filter (b : BitFlip) (calls : List Call) :
    (calls.filter Call.isGate).foldl after b = calls.foldl after b := by
  induction calls generalizing b with
  | nil => rfl
  | cons c calls ih =>
    cases c with
    | gate | pairGate => exact ih _
    | measure q => exact ih b

/-- **Circuits in reverse order lead back.** -/
theorem foldl_after_reverse {calls : List Call} (h : ∀ c ∈ calls, c.Within b.bits.size) :
    calls.reverse.foldl after (calls.foldl after b) = b := by
  induction calls generalizing b with
  | nil => rfl
  | cons c calls ih =>
    obtain ⟨hc, hcalls⟩ := List.forall_mem_cons.1 h
    have hback := ih (b := b.after c) (by rwa [size_after])
    rw [List.reverse_cons, List.foldl_append, List.foldl_cons, List.foldl_nil, List.foldl_cons,
      hback]
    exact after_after hc

/-- A circuit is run from bits to bits, each call behind the one before it. -/
inductive Passes : BitFlip → List Call → BitFlip → Prop
  | nil (b : BitFlip) : Passes b [] b
  | cons {b b' last : BitFlip} {c : Call} {r : Reply} {calls : List Call} (h : b.Answered c r b')
    (hcalls : Passes b' calls last) : Passes b (c :: calls) last

theorem passes_foldl {calls : List Call} (h : ∀ c ∈ calls, c.Within b.bits.size) :
    Passes b calls (calls.foldl after b) := by
  induction calls generalizing b with
  | nil => exact .nil b
  | cons c calls ih =>
    obtain ⟨hc, hcalls⟩ := List.forall_mem_cons.1 h
    exact .cons (answered_of_within hc) (ih (by rwa [size_after]))

theorem size_foldl_after (b : BitFlip) (calls : List Call) :
    (calls.foldl after b).bits.size = b.bits.size := by
  induction calls generalizing b with
  | nil => rfl
  | cons c calls ih => rw [List.foldl_cons, ih, size_after]

/-- **Circuits of bit flips are reversible.** From whatever bits, calls of any names for qubits that
exist, two different ones in every pair, are all answered, and each leaves the bits of other qubits
alone; measurements give the bits as they are and change none. The same gates once more in reverse
order lead back to the bits from the start, again with any measurements in between. -/
theorem restored_of_reverse {calls : List Call} (h : ∀ c ∈ calls, c.Within b.bits.size) :
    ∃ b', Passes b calls b' ∧
      ∀ back : List Call, (∀ c ∈ back, c.Within b.bits.size) →
        back.filter Call.isGate = (calls.filter Call.isGate).reverse → Passes b' back b := by
  refine ⟨_, passes_foldl h, fun back hback hgates => ?_⟩
  have hpasses := passes_foldl (b := calls.foldl after b) (by rwa [size_foldl_after])
  have hrestored : back.foldl after (calls.foldl after b) = b := by
    rw [← foldl_after_filter, hgates, ← foldl_after_filter b]
    exact foldl_after_reverse fun c hc => h c (List.mem_filter.1 hc).1
  rwa [hrestored] at hpasses

/-- Flips, exchanges and gates of other names, with a measurement on the way there and one on the
way back. -/
theorem restored_of_reverse_of_swap :
    ∃ b', Passes ⟨#[true, false, true]⟩
        [.gate "x" 0, .pairGate "cnot" 2 1, .measure 1, .pairGate "swap" 0 1, .gate "swap" 2,
          .pairGate "y" 1 2] b' ∧
      Passes b' [.pairGate "y" 1 2, .gate "swap" 2, .pairGate "swap" 0 1, .pairGate "cnot" 2 1,
        .measure 0, .gate "x" 0] ⟨#[true, false, true]⟩ := by
  obtain ⟨b', hthere, hback⟩ := @restored_of_reverse ⟨#[true, false, true]⟩
    [.gate "x" 0, .pairGate "cnot" 2 1, .measure 1, .pairGate "swap" 0 1, .gate "swap" 2,
      .pairGate "y" 1 2] (by simp [Call.Within, IsPair])
  exact ⟨b', hthere, hback _ (by simp [Call.Within, IsPair]) rfl⟩

end BitFlip

end Eqasm
