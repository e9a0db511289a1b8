import Eqasm.Proofs.Memory.Writing

/-!
# Memories with the same bytes

Two memories agree if they have one size and the same byte at every address inside, however the
bytes came there (`Memory.Agrees`). Reads cannot tell them apart and writes keep them in agreement.
-/

namespace Eqasm.Memory

/-- The memories have one size and hold the same bytes. -/
structure Agrees (m m' : Memory) : Prop where
  size : m.size = m'.size
  byte : ∀ a < m.size, m.byte a = m'.byte a

theorem byte_put (m : Memory) (a : Nat) (b : UInt8) (c : Nat) :
    (m.put a b).byte c = if c = a then b else m.byte c := by
  rw [byte, put, Std.TreeMap.getD_insert]
  by_cases h : c = a
  · simp [h]
  · simp [h, Ne.symm h, byte]

namespace Agrees

variable {m m' : Memory}

/-! ## Writing -/

theorem put (h : m.Agrees m') (a : Nat) (b : UInt8) : (m.put a b).Agrees (m'.put a b) := by
  refine ⟨h.size, fun c hc => ?_⟩
  rw [byte_put, byte_put, h.byte c hc]

theorem putAll (h : m.Agrees m') (a : Nat) (bs : List UInt8) :
    (m.putAll a bs).Agrees (m'.putAll a bs) := by
  induction bs generalizing m m' a with
  | nil => exact h
  | cons b bs ih => exact ih (h.put a b) (a + 1)

/-- An access to memories in agreement is refused for both or for none of them. -/
theorem access {α β : Type} {R : α → β → Prop} (h : m.Agrees m') {a n : Nat} {x : α} {y : β}
    (hxy : a + n ≤ m.size → R x y) : Paired R (m.access a n x) (m'.access a n y) := by
  unfold Memory.access
  rw [outside, outside, ← h.size]
  split
  · exact .ok (hxy ‹_›)
  · exact .error _

theorem writeByte (h : m.Agrees m') (a : Nat) (b : UInt8) :
    Paired Agrees ((Memory.writeByte a b).exec m) ((Memory.writeByte a b).exec m') := by
  rw [writeByte_eq, Work.exec_attempt]
  exact h.access fun _ => h.put a b

theorem writeWord (h : m.Agrees m') (a : Nat) (w : UInt32) :
    Paired Agrees ((Memory.writeWord a w).exec m) ((Memory.writeWord a w).exec m') := by
  rw [writeWord_eq, Work.exec_attempt]
  exact h.access fun _ => h.putAll a _

theorem loadImage (h : m.Agrees m') (a : Nat) (image : List UInt8) :
    Paired Agrees ((Memory.loadImage a image).exec m) ((Memory.loadImage a image).exec m') := by
  rw [loadImage_eq, Work.exec_attempt]
  exact h.access fun _ => h.putAll a image

/-! ## Reading -/

theorem readByte (h : m.Agrees m') (a : Nat) : m.readByte a = m'.readByte a :=
  (h.access fun ha => h.byte a (by omega)).eq

theorem readWord (h : m.Agrees m') (a : Nat) : m.readWord a = m'.readWord a := by
  refine Paired.eq (h.access fun ha => congrArg wordOfBytes (List.map_congr_left fun i hi => ?_))
  exact h.byte (a + i) (by have := List.mem_range.1 hi; omega)

end Agrees

end Eqasm.Memory
