import Eqasm.Proofs.Cell.Arithmetic
import Eqasm.Proofs.Machine.Addresses

/-!
# Transfers between registers and memory

On a machine with registers of 32 bits, a word that was stored is found again by every load at its
address, whatever bank it comes from or goes to, and its bytes are found by the loads of bytes
(`Datapath.Finds`). The bytes of a word may also be stored one by one, in any order
(`Datapath.StoresBytes`). Main statement: `Datapath.loads_undo_stores`.
-/

namespace Eqasm

-- Powers are the ones of the core library, whatever else is in scope.
attribute [local instance (2000)] instPowNat

namespace Memory

/-- The memory holds a word from `a` on, the least significant byte first. -/
structure HoldsWord (m : Memory) (a x : Nat) : Prop where
  inside : a + 4 ≤ m.size
  digits : ∀ i < 4, (m.byte (a + i)).toNat = x / 256 ^ i % 256

/-- A memory of the same size, with the same word from `a` on. -/
structure KeepsWord (m m' : Memory) (a : Nat) : Prop where
  size_eq : m'.size = m.size
  byte_eq : ∀ i < 4, m'.byte (a + i) = m.byte (a + i)

theorem HoldsWord.keeps {m m' : Memory} {a x : Nat} (h : m.HoldsWord a x) (hm : m.KeepsWord m' a) :
    m'.HoldsWord a x :=
  ⟨hm.size_eq ▸ h.inside, fun i hi => by rw [hm.byte_eq i hi, h.digits i hi]⟩

theorem HoldsWord.number_eq {m : Memory} {a x : Nat} (h : m.HoldsWord a x) (hx : x < 2 ^ 32) :
    m.number a 4 = x := by
  rw [number_of_digits h.digits]
  exact Nat.mod_eq_of_lt hx

theorem HoldsWord.byte_eq {m : Memory} {a x i : Nat} (h : m.HoldsWord a x) (hi : i < 4) :
    m.number (a + i) 1 = x / 256 ^ i % 256 :=
  h.digits i hi

end Memory

namespace Datapath

variable {β : Type}

/-- Registers of 32 bits, in banks of any size. -/
structure HasWords (s : Datapath β) : Prop where
  general : s.general.Sound s.general.size 32
  floating : s.floating.Sound s.floating.size 32

/-- The address at a distance from the number in register `rt`. -/
def Reaches (s : Datapath β) (rt : Nat) (offset : Int32) (a : Nat) : Prop :=
  ∃ base, s.general.read rt = .ok base ∧ (base.bits : Int) + offset.toInt = a

/-- The operation stores the word `x` from `a` on, from a register of either bank. -/
inductive StoresWord (s : Datapath β) (a x : Nat) : Operation → Prop
  | general {rs rt : Nat} {offset : Int32} {c : Cell} (h : s.Reaches rt offset a)
    (hc : s.general.read rs = .ok c) (hx : c.bits = x) :
    StoresWord s a x (.store .word rs rt offset)
  | floating {fs rt : Nat} {offset : Int32} {c : Cell} (h : s.Reaches rt offset a)
    (hc : s.floating.read fs = .ok c) (hx : c.bits = x) : StoresWord s a x (.fsw fs rt offset)

/-- The operation loads the word from `a` on into a register of either bank, which is read by
`destination`. -/
inductive LoadsWord (s : Datapath β) (a : Nat) :
    Operation → (Datapath β → Except Fault Cell) → Prop
  | general {rd rt : Nat} {offset : Int32} (h : s.Reaches rt offset a) (hrd : rd < s.general.size) :
    LoadsWord s a (.load .word rd rt offset) (·.general.read rd)
  | floating {fd rt : Nat} {offset : Int32} (h : s.Reaches rt offset a)
    (hfd : fd < s.floating.size) : LoadsWord s a (.flw fd rt offset) (·.floating.read fd)

/-- Addresses at a distance from bases of 32 bits do not wrap around. -/
theorem HasWords.exists_base {s : Datapath β} (hs : s.HasWords) {a rt : Nat} {offset : Int32}
    (h : s.Reaches rt offset a) :
    ∃ base, s.general.read rt = .ok base ∧ base.addressAt offset = a := by
  obtain ⟨base, hbase, haddress⟩ := h
  have hsmall : base.bits < 2 ^ 32 := Bank.bits_lt_of_width (hs.general.width_of_read hbase)
  have hlt := Int32.toInt_lt offset
  exact ⟨base, hbase, (Cell.addressAt_eq_iff.2 (by omega)).trans haddress⟩

variable [Backend β]

/-- An operation puts a cell of 32 bits into the register that `destination` reads. -/
def Puts (s : Datapath β) (o : Operation) (destination : Datapath β → Except Fault Cell)
    (c : Cell) : Prop :=
  ∃ t, s.execute o = (t, .ok .next) ∧ destination t = .ok c ∧ c.width = 32

/-- Loads of the word from `a` on find `x`, and loads of its bytes find these, with or without
sign. -/
structure Finds (s : Datapath β) (a x : Nat) : Prop where
  word : ∀ o destination, s.LoadsWord a o destination → ∃ c, s.Puts o destination c ∧ c.bits = x
  signedByte : ∀ i < 4, ∀ rd rt offset, s.Reaches rt offset (a + i) → rd < s.general.size →
    ∃ c, s.Puts (.load .signedByte rd rt offset) (·.general.read rd) c ∧
      c.signed = Int.bmod (x / 256 ^ i : Nat) 256
  unsignedByte : ∀ i < 4, ∀ rd rt offset, s.Reaches rt offset (a + i) → rd < s.general.size →
    ∃ c, s.Puts (.load .unsignedByte rd rt offset) (·.general.read rd) c ∧
      c.bits = x / 256 ^ i % 256

/-- The bytes of `x` are stored from `a` on, in the given order. Registers may be written between
the stores, but the memory is not. -/
inductive StoresBytes (β : Type) [Backend β] (a x : Nat) : Memory → List Nat → Memory → Prop
  | nil (m : Memory) : StoresBytes β a x m [] m
  | cons {s : Datapath β} {i rs rt : Nat} {offset : Int32} {c : Cell} {order : List Nat}
    {m : Memory} (hs : s.HasWords) (h : s.Reaches rt offset (a + i))
    (hc : s.general.read rs = .ok c) (hx : c.bits % 256 = x / 256 ^ i % 256)
    (rest : StoresBytes β a x (s.execute (.store .byte rs rt offset)).1.memory order m) :
    StoresBytes β a x s.memory (i :: order) m

/-! ## Loads -/

section

variable {s : Datapath β} {a x : Nat}

/-- A load inside the memory puts what the bytes hold into its register. -/
theorem HasWords.exists_load (hs : s.HasWords) {op : LoadOp} {rd rt : Nat} {offset : Int32}
    (hop : op.Fits 32) (h : s.Reaches rt offset a) (hrd : rd < s.general.size)
    (ha : a + op.bytes ≤ s.memory.size) :
    ∃ c, s.Puts (.load op rd rt offset) (·.general.read rd) c ∧
      c.Represents 32 (op.value (s.memory.number a op.bytes)) := by
  obtain ⟨base, hbase, haddress⟩ := hs.exists_base h
  obtain ⟨t, ⟨c, b, hb, rfl, hbits⟩, ht⟩ :=
    (accesses_load hs.general hbase hop hrd offset).inside a haddress ha
  have hwidth : c.width = 32 := (Bank.write_eq_ok.1 hb).2.1.trans hs.general.width_eq
  exact ⟨c, ⟨_, ht, Bank.read_of_write hb, hwidth⟩, hwidth, hwidth ▸ hbits⟩

theorem HasWords.exists_flw (hs : s.HasWords) {fd rt : Nat} {offset : Int32}
    (h : s.Reaches rt offset a) (hfd : fd < s.floating.size) (ha : a + 4 ≤ s.memory.size) :
    ∃ c, s.Puts (.flw fd rt offset) (·.floating.read fd) c ∧ c.bits = s.memory.number a 4 := by
  obtain ⟨base, hbase, haddress⟩ := hs.exists_base h
  obtain ⟨t, ⟨c, b, hb, rfl, hbits⟩, ht⟩ :=
    (accesses_flw hs.floating hbase hfd offset).inside a haddress ha
  have hwidth : c.width = 32 := (Bank.write_eq_ok.1 hb).2.1.trans hs.floating.width_eq
  exact ⟨c, ⟨_, ht, Bank.read_of_write hb, hwidth⟩, hbits⟩

/-- A byte with sign is the number closest to zero. -/
theorem value_signedByte (n : Nat) : LoadOp.signedByte.value (n % 256) = Int.bmod n 256 := by
  have hvalue : LoadOp.signedByte.value (n % 256) =
      if n % 256 < 128 then ((n % 256 : Nat) : Int) else (n % 256 : Nat) - 256 := rfl
  rw [hvalue, Int.bmod_def]
  split <;> split <;> omega

/-- **What the memory holds is found**, as a word and byte by byte. -/
theorem HasWords.finds (hs : s.HasWords) (hx : x < 2 ^ 32) (h : s.memory.HoldsWord a x) :
    s.Finds a x := by
  have hin := h.inside
  refine ⟨fun o destination ho => ?_, fun i hi rd rt offset hreach hrd => ?_,
    fun i hi rd rt offset hreach hrd => ?_⟩
  · cases ho with
    | general hreach hrd =>
      have hfits : LoadOp.word.Fits 32 := rfl
      obtain ⟨c, hput, hc⟩ := hs.exists_load hfits hreach hrd hin
      have hvalue : LoadOp.word.value (s.memory.number a 4) = x := by rw [h.number_eq hx]; rfl
      exact ⟨c, hput, (hvalue ▸ hc).bits_eq_of_lt hx⟩
    | floating hreach hfd =>
      obtain ⟨c, hput, hc⟩ := hs.exists_flw hreach hfd hin
      exact ⟨c, hput, hc.trans (h.number_eq hx)⟩
  · have hfits : LoadOp.signedByte.Fits 32 := (by decide : 8 ≤ 32)
    obtain ⟨c, hput, hc⟩ :=
      hs.exists_load hfits hreach hrd (Nat.le_trans (by omega : a + i + 1 ≤ a + 4) hin)
    have hvalue : LoadOp.signedByte.value (s.memory.number (a + i) 1) =
        Int.bmod (x / 256 ^ i : Nat) 256 := by
      rw [h.byte_eq hi, value_signedByte]
    have hle := @Int.le_bmod (x / 256 ^ i : Nat) 256 (by decide)
    have hlt := @Int.bmod_lt (x / 256 ^ i : Nat) 256 (by decide)
    refine ⟨c, hput, (hvalue ▸ hc).signed_eq ⟨?_, ?_⟩⟩
    · exact Int.le_trans (by decide) hle
    · exact Int.lt_of_lt_of_le hlt (by decide)
  · have hfits : LoadOp.unsignedByte.Fits 32 := (by decide : 8 ≤ 32)
    obtain ⟨c, hput, hc⟩ :=
      hs.exists_load hfits hreach hrd (Nat.le_trans (by omega : a + i + 1 ≤ a + 4) hin)
    have hvalue : LoadOp.unsignedByte.value (s.memory.number (a + i) 1) =
        (x / 256 ^ i % 256 : Nat) := by
      rw [h.byte_eq hi]
      rfl
    exact ⟨c, hput, (hvalue ▸ hc).bits_eq_of_lt (by omega)⟩

end

/-! ## Stores -/

section

variable {s : Datapath β} {a x : Nat}

/-- A store of a word inside the memory changes nothing but the word. -/
theorem StoresWord.exists_memory {o : Operation} (h : s.StoresWord a x o) (hs : s.HasWords)
    (ha : a + 4 ≤ s.memory.size) : ∃ m : Memory,
      s.execute o = ({ s with memory := m }, .ok .next) ∧ m.Holds s.memory a 4 x ∧ x < 2 ^ 32 := by
  cases h with
  | @general rs rt offset c hreach hc hx =>
    obtain ⟨base, hbase, haddress⟩ := hs.exists_base hreach
    have hwidth := hs.general.width_of_read hc
    have hfits : StoreOp.word.Fits c.width := hwidth
    obtain ⟨t, ⟨m, hm, rfl⟩, ht⟩ := (accesses_store hbase hc hfits offset).inside a haddress ha
    exact ⟨m, ht, hx ▸ hm, hx ▸ Bank.bits_lt_of_width hwidth⟩
  | @floating fs rt offset c hreach hc hx =>
    obtain ⟨base, hbase, haddress⟩ := hs.exists_base hreach
    have hwidth := hs.floating.width_of_read hc
    obtain ⟨t, ⟨m, hm, rfl⟩, ht⟩ := (accesses_fsw hbase hc hwidth offset).inside a haddress ha
    exact ⟨m, ht, hx ▸ hm, hx ▸ Bank.bits_lt_of_width hwidth⟩

/-- A store of a byte inside the memory changes nothing but the byte. -/
theorem HasWords.exists_storeByte (hs : s.HasWords) {rs rt : Nat} {offset : Int32} {c : Cell}
    (h : s.Reaches rt offset a) (hc : s.general.read rs = .ok c) (ha : a + 1 ≤ s.memory.size) :
    ∃ m : Memory, s.execute (.store .byte rs rt offset) = ({ s with memory := m }, .ok .next) ∧
      m.Holds s.memory a 1 c.bits := by
  obtain ⟨base, hbase, haddress⟩ := hs.exists_base h
  have hfits : StoreOp.byte.Fits c.width := trivial
  obtain ⟨t, ⟨m, hm, rfl⟩, ht⟩ := (accesses_store hbase hc hfits offset).inside a haddress ha
  exact ⟨m, ht, hm⟩

/-- **Bytes that were stored stay** when others are stored, and the rest of the memory is as it
was. -/
theorem StoresBytes.digits {m m' : Memory} {order : List Nat} (h : StoresBytes β a x m order m')
    (ha : a + 4 ≤ m.size) (horder : ∀ i ∈ order, i < 4) :
    m'.size = m.size ∧ (∀ i ∈ order, (m'.byte (a + i)).toNat = x / 256 ^ i % 256) ∧
      ∀ k, (∀ i ∈ order, k ≠ a + i) → m'.byte k = m.byte k := by
  induction h with
  | nil m => exact ⟨rfl, by simp, fun k _ => rfl⟩
  | @cons s i rs rt offset c order m' hs hreach hc hx rest ih =>
    have hi := horder i List.mem_cons_self
    obtain ⟨m, hm, hholds⟩ := hs.exists_storeByte hreach hc (by omega)
    rw [hm] at ih
    obtain ⟨hsize, hdigits, hkept⟩ :=
      ih (hholds.size ▸ ha) fun j hj => horder j (List.mem_cons_of_mem i hj)
    refine ⟨hsize.trans hholds.size, fun j hj => ?_, fun k hk => ?_⟩
    · -- the byte may be stored once more
      by_cases hlater : j ∈ order
      · exact hdigits j hlater
      · obtain rfl := (List.mem_cons.1 hj).resolve_right hlater
        have hbyte := hholds.inside 0 Nat.one_pos
        rw [Nat.add_zero, Nat.pow_zero, Nat.div_one, hx] at hbyte
        rw [hkept (a + j) fun k hk e => hlater (Nat.add_left_cancel e ▸ hk), hbyte]
    · have hne := hk i List.mem_cons_self
      rw [hkept k fun j hj => hk j (List.mem_cons_of_mem i hj), hholds.outside k (by omega)]

end

/-- **Loads undo stores.** On a machine with registers of 32 bits, a store of a word inside the
memory completes and changes the word at its address and nothing else. As long as the word is kept,
every load at this address, to either bank and by way of any register, puts the very pattern into
its register that was stored, from either bank, and the loads of bytes give the bytes of the
pattern, with or without sign. The same holds behind stores of the four bytes in any order, none of
which fails. -/
theorem loads_undo_stores (a : Nat) :
    (∀ (s : Datapath β) x o, s.HasWords → a + 4 ≤ s.memory.size → s.StoresWord a x o →
      ∃ m : Memory, s.execute o = ({ s with memory := m }, .ok .next) ∧ m.size = s.memory.size ∧
        (∀ k, k < a ∨ a + 4 ≤ k → m.byte k = s.memory.byte k) ∧
        ∀ t : Datapath β, t.HasWords → m.KeepsWord t.memory a → t.Finds a x) ∧
    (∀ (m m' : Memory) x order, a + 4 ≤ m.size → x < 2 ^ 32 → order.Perm (List.range 4) →
      StoresBytes β a x m order m' →
      ∀ t : Datapath β, t.HasWords → m'.KeepsWord t.memory a → t.Finds a x) ∧
    ∀ (s : Datapath β) i rs rt offset, s.HasWords → a + 4 ≤ s.memory.size → i < 4 →
      s.Reaches rt offset (a + i) → rs < s.general.size →
      ∃ t, s.execute (.store .byte rs rt offset) = (t, .ok .next) := by
  refine ⟨fun s x o hs ha ho => ?_, fun m m' x order ha hx horder hstores t ht hkeeps => ?_,
    fun s i rs rt offset hs ha hi hreach hrs => ?_⟩
  · obtain ⟨m, hm, hholds, hx⟩ := ho.exists_memory hs ha
    refine ⟨m, hm, hholds.size, hholds.outside, fun t ht hkeeps => ht.finds hx ?_⟩
    exact Memory.HoldsWord.keeps ⟨hholds.size ▸ ha, hholds.inside⟩ hkeeps
  · have hmem (i : Nat) : i ∈ order ↔ i < 4 := horder.mem_iff.trans List.mem_range
    obtain ⟨hsize, hdigits, -⟩ := hstores.digits ha fun i hi => (hmem i).1 hi
    refine ht.finds hx (Memory.HoldsWord.keeps ⟨hsize ▸ ha, fun i hi => ?_⟩ hkeeps)
    exact hdigits i ((hmem i).2 hi)
  · obtain ⟨c, hc, -⟩ := hs.general.exists_read hrs
    obtain ⟨m, hm, -⟩ := hs.exists_storeByte hreach hc (by omega)
    exact ⟨_, hm⟩

/-- The pattern of a NaN that signals is stored from a general purpose register and loaded into a
floating point register. It is put together from its bytes, which four registers hold, beginning
with the last one. -/
theorem loads_undo_stores_of_nan :
    ∃ (s t : Datapath Ideal) (m : Memory) (c c' : Cell), s.memory.size = 8 ∧
      s.execute (.store .word 1 0 2) = ({ s with memory := m }, .ok .next) ∧
      Puts { s with memory := m } (.flw 0 0 2) (·.floating.read 0) c ∧ c.bits = 0x7F800001 ∧
      StoresBytes Ideal 2 0x7F800001 s.memory [3, 1, 0, 2] t.memory ∧
      Puts t (.load .word 0 0 2) (·.general.read 0) c' ∧ c'.bits = 0x7F800001 := by
  let blank : Cell := .word 0
  let s : Datapath Ideal :=
    { general := ⟨"r", blank, #[blank, .word 0x7F800001, .word 0x80, .word 0x7F]⟩
      floating := ⟨"f", blank, #[blank]⟩
      targets := .unset 0 0 0 0
      memory := ⟨8, ∅⟩
      flags := {}
      results := #[]
      backend := ⟨⟩ }
  have hwords (m : Memory) : HasWords { s with memory := m } :=
    ⟨⟨rfl, rfl, by simp [s, blank, Cell.word]⟩, ⟨rfl, rfl, by simp [s, blank, Cell.word]⟩⟩
  have hbase (m : Memory) : Reaches { s with memory := m } 0 2 2 := ⟨blank, rfl, by decide⟩
  obtain ⟨hword, hbytes, -⟩ := loads_undo_stores (β := Ideal) 2
  obtain ⟨m, hm, -, -, hfinds⟩ := hword s 0x7F800001 (.store .word 1 0 2) (hwords s.memory)
    (by decide) (.general (hbase s.memory) (c := .word 0x7F800001) rfl rfl)
  obtain ⟨c, hput, hc⟩ := (hfinds { s with memory := m } (hwords m) ⟨rfl, fun _ _ => rfl⟩).word _ _
    (.floating (hbase m) Nat.one_pos)
  -- each byte is stored in the memory that the last store left
  have store {m m' : Memory} {order : List Nat} (i rs : Nat) (offset : Int32) (c : Cell)
      (hoffset : offset.toInt = 2 + i) (hc : s.general.read rs = .ok c)
      (hx : c.bits % 256 = 0x7F800001 / 256 ^ i % 256)
      (rest : StoresBytes Ideal 2 0x7F800001
        (execute { s with memory := m } (.store .byte rs 0 offset)).1.memory order m') :
      StoresBytes Ideal 2 0x7F800001 m (i :: order) m' :=
    .cons (s := { s with memory := m }) (hwords m)
      ⟨blank, rfl, (Int.zero_add _).trans hoffset⟩ hc hx rest
  obtain ⟨m', hstores⟩ : ∃ m', StoresBytes Ideal 2 0x7F800001 s.memory [3, 1, 0, 2] m' :=
    ⟨_, store 3 3 5 (.word 0x7F) rfl rfl rfl <| store 1 0 3 blank rfl rfl (by decide) <|
      store 0 1 2 (.word 0x7F800001) rfl rfl rfl <| store 2 2 4 (.word 0x80) rfl rfl rfl (.nil _)⟩
  obtain ⟨c', hput', hc'⟩ :=
    (hbytes s.memory m' 0x7F800001 [3, 1, 0, 2] (by decide) (by decide) (by decide) hstores
      { s with memory := m' } (hwords m') ⟨rfl, fun _ _ => rfl⟩).word _ _
      (.general (hbase m') (Nat.succ_pos 3))
  exact ⟨s, { s with memory := m' }, m, c, c', rfl, hm, hput, hc, hstores, hput', hc'⟩

end Datapath

end Eqasm
