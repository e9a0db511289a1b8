import Eqasm.Proofs.Memory.Bytes
import Eqasm.Proofs.Memory.Runs

/-!
# Memories after many writes

What a memory shows after any sequence of writes, of which some may be refused: at each address the
byte of the last write there that was not, and zero where there was none (`Memory.lastWritten?`).
Main statement: `Memory.shows_of_history`, for all ways to look at a memory (`Memory.Shows`).
-/

namespace Eqasm.Memory

-- Powers are the ones of the core library, whatever else is in scope.
attribute [local instance (2000)] instPowNat

/-! ## Writes -/

/-- A write to a memory. -/
inductive Write where
  | byte (address : Nat) (b : UInt8)
  | word (address : Nat) (w : UInt32)
  | image (address : Nat) (bytes : List UInt8)

namespace Write

/-- The address of the first byte. -/
def address : Write → Nat
  | byte a _ | word a _ | image a _ => a

/-- How many bytes are written. -/
def length : Write → Nat
  | byte _ _ => 1
  | word _ _ => 4
  | image _ bytes => bytes.length

/-- The byte that is written to `c`. A word is written with its least significant byte first. -/
def byteAt? (c : Nat) : Write → Option UInt8
  | byte a b => if c = a then some b else none
  | word a w => if a ≤ c ∧ c < a + 4 then some (.ofNat (w.toNat / 256 ^ (c - a) % 256)) else none
  | image a bytes => if a ≤ c then bytes[c - a]? else none

end Write

/-- Carries a write out. -/
def perform : Write → Work Memory Fault Unit
  | .byte a b => writeByte a b
  | .word a w => writeWord a w
  | .image a bytes => loadImage a bytes

/-- The memory after a write, be it accepted or refused. -/
def write (m : Memory) (w : Write) : Memory :=
  (perform w m).1

/-- The memory after some writes, in their order. -/
def writes (m : Memory) (history : List Write) : Memory :=
  history.foldl write m

/-- The byte that was last written to `c` in a memory of `size` bytes. Writes that do not lie inside
as a whole do not count. -/
def lastWritten? (size : Nat) (history : List Write) (c : Nat) : Option UInt8 :=
  history.reverse.findSome? fun w => if w.address + w.length ≤ size then w.byteAt? c else none

/-- The memory has `size` bytes, and whoever looks at the one at `c` sees `f c`. All accesses inside
are granted and no others. -/
structure Shows (m : Memory) (size : Nat) (f : Nat → UInt8) : Prop where
  size_eq : m.size = size
  readByte : ∀ a, m.readByte a = if a + 1 ≤ size then .ok (f a) else .error (m.outside a)
  slice : ∀ a n, m.slice a n =
    if a + n ≤ size then .ok ((List.range n).map fun i => f (a + i)) else .error (m.outside a)
  readWord_inside : ∀ a, a + 4 ≤ size → ∃ w, m.readWord a = .ok w ∧
    w.toNat = ((List.range 4).map fun i => (f (a + i)).toNat * 256 ^ i).sum
  readWord_outside : ∀ a, size < a + 4 → m.readWord a = .error (m.outside a)
  runs : Apart m.runs ∧ ∀ c, shown c m.runs = f c
  write_inside : ∀ w : Write, w.address + w.length ≤ size → ∃ m', perform w m = (m', .ok ())
  write_outside : ∀ w : Write, size < w.address + w.length →
    perform w m = (m, .error (m.outside w.address))

/-! ## One write -/

variable {m : Memory} {w : Write}

/-- The memory with all bytes of a write replaced. -/
def behind (m : Memory) : Write → Memory
  | .byte a b => m.put a b
  | .word a w => m.putAll a (bytesOfWord w)
  | .image a bytes => m.putAll a bytes

/-- All bytes of a write are replaced or none. -/
theorem perform_eq (w : Write) :
    perform w = .attempt fun m => m.access w.address w.length (m.behind w) := by
  cases w with
  | byte a b => exact writeByte_eq a b
  | word a w => exact writeWord_eq a w
  | image a bytes => exact loadImage_eq a bytes

/-- A write changes the bytes it is about and no others. -/
theorem byte_behind (m : Memory) (w : Write) :
    (m.behind w).size = m.size ∧ ∀ c, (m.behind w).byte c = (w.byteAt? c).getD (m.byte c) := by
  cases w with
  | byte a b =>
    refine ⟨rfl, fun c => ?_⟩
    rw [behind, byte_put, Write.byteAt?]
    split <;> rfl
  | word a v =>
    have hholds := m.holds_word a v
    refine ⟨hholds.size, fun c => ?_⟩
    rw [Write.byteAt?]
    by_cases hc : a ≤ c ∧ c < a + 4
    · obtain ⟨i, rfl⟩ := Nat.exists_eq_add_of_le hc.1
      have hbyte := hholds.inside i (by omega)
      rw [if_pos hc, Option.getD_some, Nat.add_sub_cancel_left, ← hbyte, UInt8.ofNat_toNat]
      rfl
    · rw [if_neg hc, Option.getD_none]
      exact hholds.outside c (by omega)
  | image a bytes =>
    refine ⟨m.size_putAll a bytes, fun c => ?_⟩
    rw [behind, byte_putAll, Write.byteAt?]
    split <;> rfl

theorem perform_inside (h : w.address + w.length ≤ m.size) :
    perform w m = (m.behind w, .ok ()) := by
  rw [perform_eq, Work.attempt_eq_ok, access, if_pos h]

theorem perform_outside (h : m.size < w.address + w.length) :
    perform w m = (m, .error (m.outside w.address)) := by
  rw [perform_eq, Work.attempt_eq_error, access, if_neg (Nat.not_le.2 h)]
  exact ⟨rfl, rfl⟩

theorem write_inside (h : w.address + w.length ≤ m.size) : m.write w = m.behind w :=
  congrArg Prod.fst (perform_inside h)

theorem write_outside (h : m.size < w.address + w.length) : m.write w = m :=
  congrArg Prod.fst (perform_outside h)

/-! ## Many writes -/

theorem lastWritten?_cons (size : Nat) (w : Write) (rest : List Write) (c : Nat) :
    lastWritten? size (w :: rest) c = (lastWritten? size rest c).or
      (if w.address + w.length ≤ size then w.byteAt? c else none) := by
  rw [lastWritten?, List.reverse_cons, List.findSome?_append, List.findSome?_singleton]
  rfl

/-- **After many writes each byte is the one that was written last.** -/
theorem byte_writes (m : Memory) (history : List Write) :
    (m.writes history).size = m.size ∧
      ∀ c, (m.writes history).byte c = (lastWritten? m.size history c).getD (m.byte c) := by
  induction history generalizing m with
  | nil => exact ⟨rfl, fun c => rfl⟩
  | cons w rest ih =>
    obtain ⟨hsize, hbyte⟩ := ih (m.write w)
    by_cases hin : w.address + w.length ≤ m.size
    · obtain ⟨hsize', hbyte'⟩ := m.byte_behind w
      rw [← write_inside hin] at hsize' hbyte'
      refine ⟨hsize.trans hsize', fun c => ?_⟩
      have hc := hbyte c
      rw [hsize', hbyte'] at hc
      rw [lastWritten?_cons, if_pos hin, Option.getD_or]
      exact hc
    · have hwrites : m.writes (w :: rest) = m.writes rest :=
        congrArg (writes · rest) (write_outside (Nat.not_le.1 hin))
      rw [write_outside (Nat.not_le.1 hin)] at hsize hbyte
      refine ⟨hwrites ▸ hsize, fun c => ?_⟩
      rw [hwrites, lastWritten?_cons, if_neg hin, Option.or_none, hbyte]

theorem shows_byte (m : Memory) : m.Shows m.size m.byte where
  size_eq := rfl
  readByte a := rfl
  slice a n := by
    rw [slice, access]
    split <;> rfl
  readWord_inside a h := by
    obtain ⟨w, hw, hread⟩ := (m.guards_readWord a).inside h
    exact ⟨w, hread, hw.trans (m.number_eq_sum a 4)⟩
  readWord_outside a := (m.guards_readWord a).outside
  runs := ⟨m.apart_runs, m.shown_runs⟩
  write_inside w h := ⟨m.behind w, perform_inside h⟩
  write_outside w h := perform_outside h

/-- **Data memory is a map from addresses to bytes.** -/
theorem shows_of_history (size : Nat) (history : List Write) :
    (writes { size } history).Shows size fun c => (lastWritten? size history c).getD 0 := by
  obtain ⟨hsize, hbyte⟩ := byte_writes { size } history
  have hempty (c : Nat) : byte { size } c = 0 := Std.TreeMap.getD_emptyc
  have hview : (writes { size } history).byte = fun c => (lastWritten? size history c).getD 0 := by
    funext c
    rw [hbyte, hempty]
  have hshows := (writes { size } history).shows_byte
  rwa [hsize, hview] at hshows

end Eqasm.Memory
