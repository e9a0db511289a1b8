import Eqasm.Proofs.Except
import Eqasm.Proofs.Memory.Agreement
import Mathlib.Algebra.Ring.Nat

/-!
# Numbers in memory

Numbers lie in memory with their least significant byte first. `Memory.number` is the number that
some bytes hold. A store puts the bytes of a number in the place of others and leaves the rest of
the memory as it is (`Memory.Holds`). Both are refused if any of the bytes lies outside
(`Memory.Guards`).
-/

namespace Eqasm.Memory

-- Powers are the ones of the core library, whatever else is in scope.
attribute [local instance (2000)] instPowNat

/-- The number that the `n` bytes from `a` on hold. -/
def number (m : Memory) (a : Nat) : Nat → Nat
  | 0 => 0
  | n + 1 => (m.byte a).toNat + 256 * m.number (a + 1) n

/-- The memory holds the lowest `n` bytes of a number from `a` on, and is like `m` otherwise. -/
structure Holds (m' m : Memory) (a n v : Nat) : Prop where
  size : m'.size = m.size
  inside : ∀ i < n, (m'.byte (a + i)).toNat = v / 256 ^ i % 256
  outside : ∀ k, k < a ∨ a + n ≤ k → m'.byte k = m.byte k

theorem number_lt (m : Memory) (a n : Nat) : m.number a n < 256 ^ n := by
  induction n generalizing a with
  | zero => exact Nat.one_pos
  | succ n ih =>
    have hbyte := (m.byte a).toNat_lt
    have hrest := ih (a + 1)
    rw [number, Nat.pow_succ]
    omega

/-- The byte with the highest address is the most significant one. -/
theorem number_succ (m : Memory) (a n : Nat) :
    m.number a (n + 1) = m.number a n + (m.byte (a + n)).toNat * 256 ^ n := by
  induction n generalizing a with
  | zero => simp only [number, Nat.mul_zero, Nat.add_zero, Nat.pow_zero, Nat.mul_one, Nat.zero_add]
  | succ n ih =>
    have haddress : a + 1 + n = a + (n + 1) := by omega
    rw [number, ih, number, haddress, Nat.pow_succ, Nat.mul_add, Nat.add_assoc]
    ac_rfl

/-- The number in some bytes is the sum of the bytes at their places. -/
theorem number_eq_sum (m : Memory) (a n : Nat) :
    m.number a n = ((List.range n).map fun i => (m.byte (a + i)).toNat * 256 ^ i).sum := by
  induction n with
  | zero => rfl
  | succ n ih =>
    rw [number_succ, ih, List.range_succ, List.map_append, List.sum_append, List.map_singleton,
      List.sum_singleton]

/-- Bytes that are the digits of a number hold it. -/
theorem number_of_digits {m : Memory} {a n v : Nat}
    (h : ∀ i < n, (m.byte (a + i)).toNat = v / 256 ^ i % 256) : m.number a n = v % 256 ^ n := by
  induction n generalizing a v with
  | zero => exact (Nat.mod_one v).symm
  | succ n ih =>
    have hfirst : (m.byte a).toNat = v % 256 := by
      have hzero := h 0 (Nat.succ_pos n)
      rwa [Nat.add_zero, Nat.pow_zero, Nat.div_one] at hzero
    have hrest : m.number (a + 1) n = v / 256 % 256 ^ n := by
      refine ih fun i hi => ?_
      have hsucc := h (i + 1) (Nat.succ_lt_succ hi)
      rwa [Nat.pow_succ', ← Nat.div_div_eq_div_mul, ← Nat.add_assoc, Nat.add_right_comm] at hsucc
    rw [number, hfirst, hrest, Nat.pow_succ', Nat.mod_mul]

/-- A word is the number of its bytes. -/
theorem toNat_wordOfBytes (m : Memory) (a : Nat) :
    (wordOfBytes (m.bytes a 4)).toNat = m.number a 4 := by
  have hfoldr : (m.bytes a 4).foldr (fun b n => b.toNat + 256 * n) 0 = m.number a 4 := rfl
  rw [wordOfBytes, hfoldr, UInt32.toNat_ofNat']
  exact Nat.mod_eq_of_lt (m.number_lt a 4)

theorem byte_putAll (m : Memory) (a : Nat) (bs : List UInt8) (k : Nat) :
    (m.putAll a bs).byte k = if a ≤ k then bs[k - a]?.getD (m.byte k) else m.byte k := by
  induction bs generalizing m a with
  | nil => simp [putAll]
  | cons b bs ih =>
    rw [putAll, ih, byte_put]
    by_cases hk : k = a
    · subst hk
      rw [if_neg (by omega), if_pos (Nat.le_refl k), Nat.sub_self, if_pos rfl]
      rfl
    · by_cases hle : a ≤ k
      · obtain ⟨i, rfl⟩ := Nat.exists_eq_add_of_lt (Nat.lt_of_le_of_ne hle (Ne.symm hk))
        have hi : a + i + 1 - (a + 1) = i := by omega
        have hi' : a + i + 1 - a = i + 1 := by omega
        rw [if_pos (by omega), if_pos hle, if_neg hk, hi, hi', List.getElem?_cons_succ]
      · rw [if_neg (by omega), if_neg hle, if_neg hk]

/-- The bytes of a word are its digits. -/
theorem holds_word (m : Memory) (a : Nat) (w : UInt32) :
    (m.putAll a (bytesOfWord w)).Holds m a 4 w.toNat := by
  have hbytes (i : Nat) : (bytesOfWord w)[i]? =
      if i < 4 then some (.ofNat (w.toNat / 256 ^ i)) else none := by
    rw [bytesOfWord, List.getElem?_map]
    by_cases hi : i < 4
    · rw [List.getElem?_range hi, if_pos hi]
      rfl
    · rw [List.getElem?_eq_none (by rw [List.length_range]; omega), if_neg hi]
      rfl
  refine ⟨?_, fun i hi => ?_, fun k hk => ?_⟩
  · rfl
  · rw [byte_putAll, if_pos (Nat.le_add_right a i), Nat.add_sub_cancel_left, hbytes, if_pos hi]
    exact UInt8.toNat_ofNat'
  · rw [byte_putAll]
    split
    · rw [hbytes, if_neg (by omega)]
      rfl
    · rfl

theorem holds_byte (m : Memory) (a : Nat) {b : UInt8} {v : Nat} (hb : b.toNat = v % 256) :
    (m.put a b).Holds m a 1 v := by
  refine ⟨rfl, fun i hi => ?_, fun k hk => ?_⟩
  · obtain rfl : i = 0 := by omega
    rw [byte_put, if_pos (Nat.add_zero a), hb, Nat.pow_zero, Nat.div_one]
  · rw [byte_put, if_neg (by omega)]

/-! ## Accesses -/

/-- A computation that needs the `n` bytes from `a` on. If all of them lie inside the memory, it
gives a value with the property `P`, and otherwise it fails. -/
structure Guards {α : Type} (m : Memory) (a n : Nat) (P : α → Prop) (x : Except Fault α) :
    Prop where
  inside : a + n ≤ m.size → ∃ v, P v ∧ x = .ok v
  outside : m.size < a + n → x = .error (m.outside a)

section

variable {α γ : Type} {m : Memory} {a n : Nat} {P : α → Prop} {Q : γ → Prop}

theorem guards_access {v : α} (h : P v) : m.Guards a n P (m.access a n v) :=
  ⟨fun hin => ⟨v, h, if_pos hin⟩, fun hout => if_neg (Nat.not_le.2 hout)⟩

/-- Behind the access nothing fails. -/
theorem Guards.bind {x : Except Fault α} {f : α → Except Fault γ} (h : m.Guards a n P x)
    (hf : ∀ v, P v → ∃ w, Q w ∧ f v = .ok w) : m.Guards a n Q (x >>= f) := by
  constructor
  · intro hin
    obtain ⟨v, hv, hx⟩ := h.inside hin
    obtain ⟨w, hw, hfw⟩ := hf v hv
    exact ⟨w, hw, except_bind_eq_ok.2 ⟨v, hx, hfw⟩⟩
  · intro hout
    rw [h.outside hout]
    rfl

end

variable (m : Memory) (a : Nat)

theorem guards_readByte : m.Guards a 1 (fun b => b.toNat = m.number a 1) (m.readByte a) :=
  guards_access rfl

theorem guards_readWord : m.Guards a 4 (fun w => w.toNat = m.number a 4) (m.readWord a) :=
  guards_access (m.toNat_wordOfBytes a)

theorem guards_writeByte {b : UInt8} {v : Nat} (hb : b.toNat = v % 256) :
    m.Guards a 1 (fun m' => m'.Holds m a 1 v) ((writeByte a b).exec m) := by
  rw [writeByte_eq, Work.exec_attempt]
  exact guards_access (m.holds_byte a hb)

theorem guards_writeWord (w : UInt32) :
    m.Guards a 4 (fun m' => m'.Holds m a 4 w.toNat) ((writeWord a w).exec m) := by
  rw [writeWord_eq, Work.exec_attempt]
  exact guards_access (m.holds_word a w)

end Eqasm.Memory
