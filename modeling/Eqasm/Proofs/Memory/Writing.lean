import Eqasm.Memory
import Eqasm.Proofs.Work

/-!
# Writes to memory

A write that goes beyond the memory finds this out before it has replaced any byte, and nothing
stops it once it has begun. So every write replaces all of its bytes or none (`Memory.writeByte_eq`,
`Memory.writeWord_eq`, `Memory.loadImage_eq`), although it replaces one after the other.
-/

namespace Eqasm.Memory

open Work

/-- The memory with the bytes from `a` on replaced. -/
def putAll (m : Memory) (a : Nat) : List UInt8 → Memory
  | [] => m
  | b :: bs => (m.put a b).putAll (a + 1) bs

theorem size_putAll (m : Memory) (a : Nat) (bs : List UInt8) : (m.putAll a bs).size = m.size := by
  induction bs generalizing m a with
  | nil => rfl
  | cons b bs ih => exact ih _ _

theorem access_eq_ok {α : Type} {m : Memory} {a n : Nat} {x y : α} :
    m.access a n x = .ok y ↔ a + n ≤ m.size ∧ x = y := by
  rw [access]
  split
  · simp [*]
  · simp [*]

theorem access_bind {m : Memory} {a n : Nat} (x : Memory) :
    (m.access a n () >>= fun _ => pure x) = m.access a n x := by
  rw [access, access]
  split <;> rfl

theorem writeByte_eq (a : Nat) (b : UInt8) :
    writeByte a b = attempt fun m => m.access a 1 (m.put a b) := by
  simp only [writeByte, look_bind_change, access_bind]

/-- Bytes that are all inside are replaced without a fault. -/
theorem writeBytes_eq {m : Memory} {a : Nat} {bs : List UInt8} (h : a + bs.length ≤ m.size) :
    writeBytes a bs m = (m.putAll a bs, .ok ()) := by
  induction bs generalizing m a with
  | nil => rfl
  | cons b bs ih =>
    rw [List.length_cons] at h
    have hfirst : writeByte a b m = (m.put a b, .ok ()) := by
      rw [writeByte_eq, attempt_eq_ok, access, if_pos (by omega)]
    have hrest : a + 1 + bs.length ≤ (m.put a b).size := by
      show a + 1 + bs.length ≤ m.size
      omega
    rw [writeBytes, bind_of_ok hfirst]
    exact ih hrest

/-- Bytes that are known to be inside before the first one is replaced are replaced together. -/
theorem look_bind_writeBytes (a : Nat) (bs : List UInt8) :
    (look (·.access a bs.length ()) >>= fun _ => writeBytes a bs) =
      attempt fun m => m.access a bs.length (m.putAll a bs) := by
  funext m
  by_cases h : a + bs.length ≤ m.size
  · have hlook : look (·.access a bs.length ()) m = (m, .ok ()) := by
      rw [look, access, if_pos h]
    rw [bind_of_ok hlook, writeBytes_eq h, attempt, access, if_pos h]
  · have hlook : look (·.access a bs.length ()) m = (m, .error (m.outside a)) := by
      rw [look, access, if_neg h]
    rw [bind_of_error hlook, attempt, access, if_neg h]

theorem length_bytesOfWord (w : UInt32) : (bytesOfWord w).length = 4 := by
  rw [bytesOfWord, List.length_map, List.length_range]

/-- **The bytes of a word are replaced together.** -/
theorem writeWord_eq (a : Nat) (w : UInt32) :
    writeWord a w = attempt fun m => m.access a 4 (m.putAll a (bytesOfWord w)) := by
  rw [← length_bytesOfWord w]
  exact look_bind_writeBytes a (bytesOfWord w)

/-- **The bytes of an image are replaced together.** -/
theorem loadImage_eq (a : Nat) (image : List UInt8) :
    loadImage a image = attempt fun m => m.access a image.length (m.putAll a image) :=
  look_bind_writeBytes a image

/-! ## Accepted writes -/

section

variable {m m' : Memory} {a : Nat}

theorem writeByte_eq_ok {b : UInt8} :
    writeByte a b m = (m', .ok ()) ↔ a + 1 ≤ m.size ∧ m.put a b = m' := by
  rw [writeByte_eq, attempt_eq_ok, access_eq_ok]

theorem writeWord_eq_ok {w : UInt32} :
    writeWord a w m = (m', .ok ()) ↔ a + 4 ≤ m.size ∧ m.putAll a (bytesOfWord w) = m' := by
  rw [writeWord_eq, attempt_eq_ok, access_eq_ok]

theorem loadImage_eq_ok {image : List UInt8} :
    loadImage a image m = (m', .ok ()) ↔ a + image.length ≤ m.size ∧ m.putAll a image = m' := by
  rw [loadImage_eq, attempt_eq_ok, access_eq_ok]

theorem size_of_writeByte {b : UInt8} (h : writeByte a b m = (m', .ok ())) : m'.size = m.size :=
  (writeByte_eq_ok.1 h).2 ▸ rfl

theorem size_of_writeWord {w : UInt32} (h : writeWord a w m = (m', .ok ())) : m'.size = m.size :=
  (writeWord_eq_ok.1 h).2 ▸ m.size_putAll a _

theorem size_of_loadImage {image : List UInt8} (h : loadImage a image m = (m', .ok ())) :
    m'.size = m.size :=
  (loadImage_eq_ok.1 h).2 ▸ m.size_putAll a image

end

end Eqasm.Memory
