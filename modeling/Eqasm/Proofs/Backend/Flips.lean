import Eqasm.Backend.BitFlip
import Eqasm.Proofs.Backend.Replies

/-!
# What calls do to bits

On qubits that exist a bit-flip backend answers every call (`BitFlip.answer_eq`). What it answers is
decided by the bits of the qubits of the call (`BitFlip.reply_congr`), and so are the new bits of
these qubits (`BitFlip.getElem?_after_congr`); the bits of all others stay
(`BitFlip.getElem?_after`). So calls on different qubits can be exchanged (`BitFlip.after_comm`).
-/

namespace Eqasm

/-- The qubits that a call is about. -/
def Call.qubits : Call → List Nat
  | .gate _ q | .measure q => [q]
  | .pairGate _ p q => [p, q]

/-- Outcomes for different qubits can be recorded in any order. -/
theorem Reply.record_comm {r r' : Reply} (h : r.call.qubits.Disjoint r'.call.qubits)
    (results : Array Nat) : r.record (r'.record results) = r'.record (r.record results) := by
  cases r with
  | gate | pairGate => rfl
  | measure q n =>
    cases r' with
    | gate | pairGate => rfl
    | measure q' n' =>
      have hne : q' ≠ q := fun e => h (List.mem_singleton.2 rfl) (List.mem_singleton.2 e.symm)
      rw [record, record, record, record]
      split
      · split
        · exact Array.setIfInBounds_comm _ _ hne
        · rfl
      · rfl

namespace BitFlip

/-- The bit of a qubit, clear if there is no such qubit. -/
def bit (b : BitFlip) (q : Nat) : Bool :=
  b.bits[q]?.getD false

/-- The backend with another bit for a qubit. -/
def set (b : BitFlip) (q : Nat) (bit : Bool) : BitFlip :=
  ⟨b.bits.setIfInBounds q bit⟩

/-- The backend behind a call. -/
def after (b : BitFlip) : Call → BitFlip
  | .gate name q => if name ∈ flips then b.set q !b.bit q else b
  | .pairGate name p q =>
    if name ∈ controlledFlips then if b.bit p then b.set q !b.bit q else b
    else if name = "swap" then (b.set p (b.bit q)).set q (b.bit p)
    else b
  | .measure _ => b

/-- The answer to a call. -/
def reply (b : BitFlip) : Call → Reply
  | .gate name q => .gate name q
  | .pairGate name p q => .pairGate name p q
  | .measure q => .measure q (if b.bit q then 1 else 0)

variable {b b' : BitFlip} {c d : Call}

theorem read_eq {q : Nat} (h : q < b.bits.size) : b.read q = .ok (b.bit q) := by
  rw [read, bit, Array.getElem?_eq_getElem h]
  rfl

theorem flip_eq {q : Nat} (h : q < b.bits.size) : b.flip q = .ok (b.set q !b.bit q) := by
  rw [flip, read_eq h]
  rfl

theorem swap_eq {p q : Nat} (hp : p < b.bits.size) (hq : q < b.bits.size) :
    b.swap p q = .ok ((b.set p (b.bit q)).set q (b.bit p)) := by
  rw [swap, read_eq hp, read_eq hq]
  rfl

/-- **Calls for qubits that exist are answered.** -/
theorem answer_eq (h : ∀ q ∈ c.qubits, q < b.bits.size) :
    Backend.answer b c = .ok (b.reply c, b.after c) := by
  cases c with
  | gate name q =>
    have hflip := flip_eq (h q (by simp [Call.qubits]))
    by_cases hname : name ∈ flips
    · simp only [Backend.answer, Backend.gate, after, if_pos hname, hflip]
      rfl
    · simp only [Backend.answer, Backend.gate, after, if_neg hname]
      rfl
  | pairGate name p q =>
    have hp : p < b.bits.size := h p (by simp [Call.qubits])
    have hq : q < b.bits.size := h q (by simp [Call.qubits])
    by_cases hname : name ∈ controlledFlips
    · by_cases hbit : b.bit p = true
      · simp only [Backend.answer, Backend.pairGate, after, if_pos hname, read_eq hp, hbit,
          flip_eq hq]
        rfl
      · simp only [Backend.answer, Backend.pairGate, after, if_pos hname, read_eq hp, hbit]
        rfl
    · by_cases hswap : name = "swap"
      · simp only [Backend.answer, Backend.pairGate, after, if_neg hname, if_pos hswap,
          swap_eq hp hq]
        rfl
      · simp only [Backend.answer, Backend.pairGate, after, if_neg hname, if_neg hswap]
        rfl
  | measure q =>
    have hread := read_eq (h q (by simp [Call.qubits]))
    simp only [Backend.answer, Backend.measure, hread]
    rfl

theorem call_reply (b : BitFlip) (c : Call) : (b.reply c).call = c := by
  cases c <;> rfl

theorem check_reply (b : BitFlip) (c : Call) : (b.reply c).check = .ok () := by
  cases c with
  | gate name q | pairGate name p q => rfl
  | measure q =>
    rw [reply, Reply.check, if_pos]
    split <;> decide

/-! ## Locality -/

theorem getElem?_set (b : BitFlip) (q : Nat) (bit : Bool) (k : Nat) :
    (b.set q bit).bits[k]? =
      if q = k then if q < b.bits.size then some bit else none else b.bits[k]? :=
  Array.getElem?_setIfInBounds

theorem size_set (b : BitFlip) (q : Nat) (bit : Bool) : (b.set q bit).bits.size = b.bits.size :=
  Array.size_setIfInBounds

theorem size_after (b : BitFlip) (c : Call) : (b.after c).bits.size = b.bits.size := by
  cases c with
  | gate name q =>
    rw [after]
    split
    · rw [size_set]
    · rfl
  | pairGate name p q =>
    rw [after]
    split
    · split
      · rw [size_set]
      · rfl
    · split
      · rw [size_set, size_set]
      · rfl
  | measure q => rfl

/-- A call leaves the bits of other qubits alone. -/
theorem getElem?_after (b : BitFlip) {k : Nat} (hk : k ∉ c.qubits) :
    (b.after c).bits[k]? = b.bits[k]? := by
  cases c with
  | gate name q =>
    have hq : q ≠ k := by simpa [Call.qubits, eq_comm] using hk
    rw [after]
    split
    · rw [getElem?_set, if_neg hq]
    · rfl
  | pairGate name p q =>
    obtain ⟨hp, hq⟩ : p ≠ k ∧ q ≠ k := by simpa [Call.qubits, eq_comm] using hk
    rw [after]
    split
    · split
      · rw [getElem?_set, if_neg hq]
      · rfl
    · split
      · rw [getElem?_set, if_neg hq, getElem?_set, if_neg hp]
      · rfl
  | measure q => rfl

section

variable (h : ∀ q ∈ c.qubits, b.bits[q]? = b'.bits[q]?)
include h

theorem bit_congr {q : Nat} (hq : q ∈ c.qubits) : b.bit q = b'.bit q := by
  rw [bit, bit, h q hq]

/-- The answer to a call is decided by the bits of its qubits. -/
theorem reply_congr : b.reply c = b'.reply c := by
  cases c with
  | gate name q | pairGate name p q => rfl
  | measure q => rw [reply, reply, bit_congr h (by simp [Call.qubits])]

/-- The bits behind a call are decided by those of its qubits. -/
theorem getElem?_after_congr (hsize : b.bits.size = b'.bits.size) {k : Nat}
    (hk : b.bits[k]? = b'.bits[k]?) : (b.after c).bits[k]? = (b'.after c).bits[k]? := by
  cases c with
  | gate name q =>
    have hq : b.bit q = b'.bit q := bit_congr h (by simp [Call.qubits])
    rw [after, after, hq]
    split
    · rw [getElem?_set, getElem?_set, hsize, hk]
    · exact hk
  | pairGate name p q =>
    have hp : b.bit p = b'.bit p := bit_congr h (by simp [Call.qubits])
    have hq : b.bit q = b'.bit q := bit_congr h (by simp [Call.qubits])
    rw [after, after, hp, hq]
    split
    · split
      · rw [getElem?_set, getElem?_set, hsize, hk]
      · exact hk
    · split
      · simp only [getElem?_set, size_set, hsize, hk]
      · exact hk
  | measure q => exact hk

end

/-! ## Different qubits -/

section

variable (hdisjoint : c.qubits.Disjoint d.qubits)
include hdisjoint

/-- A call sees nothing of one for other qubits. -/
theorem getElem?_after_of_disjoint (b : BitFlip) :
    ∀ q ∈ c.qubits, (b.after d).bits[q]? = b.bits[q]? :=
  fun _ hq => b.getElem?_after fun hd => hdisjoint hq hd

theorem reply_after (b : BitFlip) : (b.after d).reply c = b.reply c :=
  reply_congr (getElem?_after_of_disjoint hdisjoint b)

/-- **Calls for different qubits can be exchanged.** -/
theorem after_comm (b : BitFlip) : (b.after c).after d = (b.after d).after c := by
  have hbits : ((b.after c).after d).bits = ((b.after d).after c).bits := by
    refine Array.ext_getElem? fun k => ?_
    -- a qubit of the second call is changed by it alone, and any other one is not
    by_cases hk : k ∈ d.qubits
    · have hc : k ∉ c.qubits := fun hc => hdisjoint hc hk
      have hdc : d.qubits.Disjoint c.qubits := fun _ hq hq' => hdisjoint hq' hq
      rw [getElem?_after _ hc]
      exact getElem?_after_congr (getElem?_after_of_disjoint hdc b) (size_after b c)
        (b.getElem?_after hc)
    · rw [getElem?_after _ hk]
      exact (getElem?_after_congr (getElem?_after_of_disjoint hdisjoint b) (size_after b d)
        (b.getElem?_after hk)).symm
  exact congrArg mk hbits

end

end BitFlip

end Eqasm
