import Eqasm.Backend.Ideal
import Eqasm.Proofs.Bank.Sound
import Eqasm.Proofs.Cell.Views
import Eqasm.Proofs.Machine.Comparisons
import Eqasm.Proofs.Memory.Bytes

/-!
# Addresses

Loads and stores go to the bytes at a distance from a base. The sum is one of signed numbers of 64
bits (`Cell.addressAt`), so sums from `2 ^ 63` on wrap around, and only registers of 64 bits can
hold a base that wraps into the memory. An access completes exactly if all of its bytes lie inside
the memory, and otherwise fails and changes nothing (`Datapath.Accesses`).
-/

namespace Eqasm

-- Powers are the ones of the core library, whatever else is in scope.
attribute [local instance (2000)] instPowNat

/-! ## Bases -/

/-- The address at a distance from a base, as a signed number of 64 bits. -/
def Cell.addressAt (base : Cell) (offset : Int32) : Int :=
  Int.bmod (base.bits + offset.toInt) 0x10000000000000000

/-- The address is the sum, or wraps around once if the sum is too large. -/
theorem Cell.addressAt_eq (base : Cell) (offset : Int32) :
    base.addressAt offset =
      if (base.bits : Int) + offset.toInt < (2 ^ 63 : Nat) then base.bits + offset.toInt
      else base.bits + offset.toInt - (2 ^ 64 : Nat) := by
  have hbits : base.bits < 2 ^ 64 :=
    Nat.lt_of_lt_of_le base.bits_lt (Nat.pow_le_pow_right (by decide) base.width_le)
  have hle := Int32.le_toInt offset
  have hlt := Int32.toInt_lt offset
  rw [addressAt, Int.bmod_def]
  split <;> split <;> omega

/-- Sums below `2 ^ 63`, and no others, are exact. -/
theorem Cell.addressAt_eq_iff {base : Cell} {offset : Int32} :
    base.addressAt offset = base.bits + offset.toInt ↔
      (base.bits : Int) + offset.toInt < (2 ^ 63 : Nat) := by
  rw [addressAt_eq]
  split <;> omega

theorem Cell.bits_lt_of_width_le {c : Cell} (h : c.width ≤ 63) : c.bits < 2 ^ 63 :=
  Nat.lt_of_lt_of_le c.bits_lt (Nat.pow_le_pow_right (by decide) h)

/-! ## Accesses -/

/-- The number of bytes that a load reads. -/
def LoadOp.bytes : LoadOp → Nat
  | .word => 4
  | .signedByte | .unsignedByte => 1

/-- The widths of registers that a load can be used with. -/
def LoadOp.Fits (width : Nat) : LoadOp → Prop
  | .word => width = 32
  | .signedByte | .unsignedByte => 8 ≤ width

/-- The number that a load takes from bytes that hold `n`. -/
def LoadOp.value (op : LoadOp) (n : Nat) : Int :=
  match op with
  | .word | .unsignedByte => n
  | .signedByte => if n < 128 then n else n - 256

/-- The number of bytes that a store replaces. -/
def StoreOp.bytes : StoreOp → Nat
  | .word => 4
  | .byte => 1

/-- The widths of registers that a store can be used with. -/
def StoreOp.Fits (width : Nat) : StoreOp → Prop
  | .word => width = 32
  | .byte => True

/-! ## Loads and stores -/

theorem Cell.exists_extend (b : UInt8) {width : Nat} (h : 8 ≤ width ∧ width ≤ 64) :
    (∃ c : Cell, (byte b).signExtend width = .ok c ∧ c.width = width ∧
      (c.bits : Int) = LoadOp.signedByte.value b.toNat % (2 ^ width : Nat)) ∧
    ∃ c : Cell, (byte b).zeroExtend width = .ok c ∧ c.width = width ∧
      (c.bits : Int) = LoadOp.unsignedByte.value b.toNat % (2 ^ width : Nat) := by
  have hle : ¬ width < (byte b).width := Nat.not_lt.2 h.1
  have hpow : 2 ^ (byte b).width ≤ 2 ^ width := Nat.pow_le_pow_right (by decide) h.1
  have hhalf : 2 ^ ((byte b).width - 1) ≤ 2 ^ (width - 1) :=
    Nat.pow_le_pow_right (by decide) (Nat.sub_le_sub_right h.1 1)
  rw [signExtend, zeroExtend, if_neg hle, if_neg hle]
  constructor
  · obtain ⟨hlo, hhi⟩ := (byte b).twosComplement_range
    rw [signed_eq]
    exact exists_ofSigned ⟨by omega, h.2⟩ ⟨by omega, by omega⟩
  · have hlt : (b.toNat : Int) < (2 ^ width : Nat) :=
      Int.ofNat_lt.2 (Nat.lt_of_lt_of_le (byte b).bits_lt hpow)
    rw [ofUnsigned, dif_pos ⟨by omega, h.2⟩, dif_pos (Nat.lt_of_lt_of_le (byte b).bits_lt hpow)]
    exact ⟨_, rfl, rfl, (Int.emod_eq_of_lt (Int.natCast_nonneg _) hlt).symm⟩

namespace Datapath

variable {β : Type} {s : Datapath β} {width : Nat}

theorem guards_loaded (op : LoadOp) (hwidth : s.general.width = width) (hle : width ≤ 64)
    (hop : op.Fits width) (a : Nat) :
    s.memory.Guards a op.bytes
      (fun c => c.width = width ∧
        (c.bits : Int) = op.value (s.memory.number a op.bytes) % (2 ^ width : Nat))
      (s.loaded a op) := by
  subst hwidth
  cases op with
  | word =>
    have hlt : s.memory.number a 4 < 2 ^ s.general.width := by
      rw [hop]
      exact s.memory.number_lt a 4
    refine (s.memory.guards_readWord a).bind fun w hw => ⟨.word w, ⟨hop.symm, ?_⟩, rfl⟩
    have hbits : (Cell.word w).bits = s.memory.number a 4 := hw
    rw [hbits]
    exact (Int.emod_eq_of_lt (Int.natCast_nonneg _) (Int.ofNat_lt.2 hlt)).symm
  | signedByte =>
    refine (s.memory.guards_readByte a).bind fun b hb => ?_
    obtain ⟨⟨c, hc, hcw, hbits⟩, -⟩ := Cell.exists_extend b ⟨hop, hle⟩
    exact ⟨c, ⟨hcw, hb ▸ hbits⟩, hc⟩
  | unsignedByte =>
    refine (s.memory.guards_readByte a).bind fun b hb => ?_
    obtain ⟨-, c, hc, hcw, hbits⟩ := Cell.exists_extend b ⟨hop, hle⟩
    exact ⟨c, ⟨hcw, hb ▸ hbits⟩, hc⟩

theorem guards_stored (op : StoreOp) {x : Cell} (hop : op.Fits x.width) (a : Nat) :
    s.memory.Guards a op.bytes (fun m => m.Holds s.memory a op.bytes x.bits) (s.stored a x op) := by
  cases op with
  | word =>
    have hword : x.toWord = .ok (.ofNat x.bits) := if_pos hop
    have hbits : (UInt32.ofNat x.bits).toNat = x.bits :=
      UInt32.toNat_ofNat_of_lt (Nat.lt_of_lt_of_eq x.bits_lt (by rw [hop]))
    have hstored : s.stored a x .word = (Memory.writeWord a (.ofNat x.bits)).exec s.memory := by
      rw [stored, hword]
      rfl
    have hguards := s.memory.guards_writeWord a (.ofNat x.bits)
    rw [hbits] at hguards
    rw [hstored]
    exact hguards
  | byte => exact s.memory.guards_writeByte a UInt8.toNat_ofNat'

/-- The datapath with what a load takes from the bytes from `a` on in register `rd`. -/
def Loads (s : Datapath β) (op : LoadOp) (rd a : Nat) (t : Datapath β) : Prop :=
  ∃ (c : Cell) (b : Bank), s.general.write rd c = .ok b ∧ t = { s with general := b } ∧
    (c.bits : Int) = op.value (s.memory.number a op.bytes) % (2 ^ c.width : Nat)

/-- The datapath with the word from `a` on in floating point register `fd`. -/
def LoadsSingle (s : Datapath β) (fd a : Nat) (t : Datapath β) : Prop :=
  ∃ (c : Cell) (b : Bank), s.floating.write fd c = .ok b ∧ t = { s with floating := b } ∧
    c.bits = s.memory.number a 4

/-- The datapath with the lowest bytes of a number in the place of the `n` bytes from `a` on. -/
def Stores (s : Datapath β) (n v a : Nat) (t : Datapath β) : Prop :=
  ∃ m : Memory, m.Holds s.memory a n v ∧ t = { s with memory := m }

variable {rt : Nat} {base : Cell}

theorem address_eq (hbase : s.general.read rt = .ok base) (offset : Int32) :
    s.address rt offset =
      if 0 ≤ base.addressAt offset then .ok (base.addressAt offset).toNat
      else .error (.addressOutOfRange (base.addressAt offset) s.memory.size) := by
  rw [address, hbase]
  rfl

variable [Backend β]

/-- What an operation makes of a datapath that accesses `n` bytes from an address on. If all of them
lie inside the memory, it gives a datapath that `Done` tells. Otherwise it fails and changes
nothing. -/
structure Accesses (s : Datapath β) (o : Operation) (address : Int) (n : Nat)
    (Done : Nat → Datapath β → Prop) : Prop where
  inside : ∀ a : Nat, address = a → a + n ≤ s.memory.size →
    ∃ t, Done a t ∧ s.execute o = (t, .ok .next)
  outside : ¬ (0 ≤ address ∧ address + n ≤ s.memory.size) →
    ∃ a, s.execute o = (s, .error (.addressOutOfRange a s.memory.size))

/-- Operations that compute an address and access the bytes from there on. -/
theorem accesses_of_guards {o : Operation} {offset : Int32} {n : Nat}
    {Done : Nat → Datapath β → Prop} {f : Nat → Except Fault (Datapath β)}
    (hbase : s.general.read rt = .ok base) (ho : ∀ pi ops, o ≠ .bundle pi ops)
    (hflow : o.flow s.flags = .next) (hcompute : s.compute o = s.address rt offset >>= f)
    (hf : ∀ a, s.memory.Guards a n (Done a) (f a)) :
    s.Accesses o (base.addressAt offset) n Done := by
  have haddress := address_eq hbase offset
  generalize base.addressAt offset = e at haddress
  constructor
  · rintro a rfl ha
    obtain ⟨t, hdone, hft⟩ := (hf a).inside ha
    rw [if_pos (Int.natCast_nonneg a), Int.toNat_natCast] at haddress
    have ht : s.compute o = .ok t := by
      rw [hcompute, haddress]
      exact hft
    exact ⟨t, hdone, by rw [execute_eq ho, ht, hflow]⟩
  · intro hout
    obtain ⟨a, ha⟩ : ∃ a, s.compute o = .error (.addressOutOfRange a s.memory.size) := by
      rw [hcompute, haddress]
      -- negative addresses are refused before the memory is asked
      by_cases he : 0 ≤ e
      · rw [if_pos he]
        exact ⟨_, (hf e.toNat).outside (by omega)⟩
      · rw [if_neg he]
        exact ⟨e, rfl⟩
    exact ⟨a, by rw [execute_eq ho, ha]⟩

theorem accesses_load {op : LoadOp} {rd count : Nat} (hgeneral : s.general.Sound count width)
    (hbase : s.general.read rt = .ok base) (hop : op.Fits width) (hrd : rd < count)
    (offset : Int32) :
    s.Accesses (.load op rd rt offset) (base.addressAt offset) op.bytes (s.Loads op rd) := by
  have hle : width ≤ 64 := hgeneral.width_of_read hbase ▸ base.width_le
  refine accesses_of_guards hbase (by simp) rfl rfl fun a => ?_
  refine (guards_loaded op hgeneral.width_eq hle hop a).bind fun c ⟨hwidth, hbits⟩ => ?_
  obtain ⟨b, hb⟩ := hgeneral.exists_write hrd hwidth
  exact ⟨_, ⟨c, b, hb, rfl, hwidth ▸ hbits⟩, except_bind_eq_ok.2 ⟨b, hb, rfl⟩⟩

theorem accesses_store {op : StoreOp} {rs : Nat} {x : Cell} (hbase : s.general.read rt = .ok base)
    (hx : s.general.read rs = .ok x) (hop : op.Fits x.width) (offset : Int32) :
    s.Accesses (.store op rs rt offset) (base.addressAt offset) op.bytes
      (s.Stores op.bytes x.bits) := by
  refine accesses_of_guards hbase (by simp) rfl rfl fun a => ?_
  rw [hx]
  exact (guards_stored op hop a).bind fun m hm => ⟨_, ⟨m, hm, rfl⟩, rfl⟩

theorem accesses_flw {f count : Nat} (hfloating : s.floating.Sound count 32)
    (hbase : s.general.read rt = .ok base) (hf : f < count) (offset : Int32) :
    s.Accesses (.flw f rt offset) (base.addressAt offset) 4 (s.LoadsSingle f) := by
  refine accesses_of_guards hbase (by simp) rfl rfl fun a => ?_
  refine (s.memory.guards_readWord a).bind fun w hw => ?_
  obtain ⟨b, hb⟩ := hfloating.exists_write (c := .word w) hf rfl
  exact ⟨_, ⟨.word w, b, hb, rfl, hw⟩, except_bind_eq_ok.2 ⟨b, hb, rfl⟩⟩

theorem accesses_fsw {f : Nat} {x : Cell} (hbase : s.general.read rt = .ok base)
    (hx : s.floating.read f = .ok x) (hwidth : x.width = 32) (offset : Int32) :
    s.Accesses (.fsw f rt offset) (base.addressAt offset) 4 (s.Stores 4 x.bits) := by
  refine accesses_of_guards hbase (by simp) rfl rfl fun a => ?_
  rw [hx]
  exact (guards_stored .word hwidth a).bind fun m hm => ⟨_, ⟨m, hm, rfl⟩, rfl⟩

/-- An address that wrapped around to a negative number is refused as the sum would be. -/
theorem Accesses.of_wrapped {o : Operation} {address sum : Int} {n : Nat}
    {Done : Nat → Datapath β → Prop} (h : s.Accesses o address n Done) (haddress : address < 0)
    (hsum : s.memory.size < sum) : s.Accesses o sum n Done where
  inside a hsum' ha := by omega
  outside _ := h.outside (by omega)

/-- **Accesses.** The address of a load or store is the sum of the number in its base register and
its distance exactly if the sum is below `2 ^ 63`. If all bytes from the address on lie inside the
memory, a load puts what they hold into its register, a store puts the lowest bytes of its register
in their place, and nothing else changes. Otherwise both fail, and nothing changes. On a memory of
less than `2 ^ 63` bytes, the same holds of the sum itself if the base is below `2 ^ 63`, as it is
in registers of up to 63 bits. -/
theorem accesses_of_base {count floatCount floatWidth : Nat}
    (hgeneral : s.general.Sound count width)
    (hfloating : s.floating.Sound floatCount floatWidth) (hrt : rt < count) (offset : Int32) :
    ∃ base, s.general.read rt = .ok base ∧ base.width = width ∧
      (base.addressAt offset = base.bits + offset.toInt ↔
        (base.bits : Int) + offset.toInt < (2 ^ 63 : Nat)) ∧
      (width ≤ 63 → base.bits < 2 ^ 63) ∧
      ∀ address : Int, address = base.addressAt offset ∨
          address = base.bits + offset.toInt ∧ base.bits < 2 ^ 63 ∧ s.memory.size < 2 ^ 63 →
        (∀ op rd, op.Fits width → rd < count →
          s.Accesses (.load op rd rt offset) address op.bytes (s.Loads op rd)) ∧
        (∀ op rs, op.Fits width → rs < count → ∃ x, s.general.read rs = .ok x ∧
          s.Accesses (.store op rs rt offset) address op.bytes (s.Stores op.bytes x.bits)) ∧
        ∀ f, floatWidth = 32 → f < floatCount →
          s.Accesses (.flw f rt offset) address 4 (s.LoadsSingle f) ∧
          ∃ x, s.floating.read f = .ok x ∧
            s.Accesses (.fsw f rt offset) address 4 (s.Stores 4 x.bits) := by
  obtain ⟨base, hbase, hwidth⟩ := hgeneral.exists_read hrt
  refine ⟨base, hbase, hwidth, Cell.addressAt_eq_iff,
    fun hsmall => Cell.bits_lt_of_width_le (hwidth ▸ hsmall), fun address haddress => ?_⟩
  -- the address is the sum, or the sum is too large for the memory and the address negative
  have hexact {o : Operation} {n : Nat} {Done : Nat → Datapath β → Prop}
      (h : s.Accesses o (base.addressAt offset) n Done) : s.Accesses o address n Done := by
    rcases haddress with rfl | ⟨rfl, hbits, hsize⟩
    · exact h
    · have hlt := Int32.toInt_lt offset
      have heq := base.addressAt_eq offset
      split at heq
      · rwa [heq] at h
      · exact h.of_wrapped (by omega) (by omega)
  refine ⟨fun op rd hop hrd => ?_, fun op rs hop hrs => ?_, fun f hfloat hf => ?_⟩
  · exact hexact (accesses_load hgeneral hbase hop hrd offset)
  · obtain ⟨x, hx, hxwidth⟩ := hgeneral.exists_read hrs
    exact ⟨x, hx, hexact (accesses_store hbase hx (hxwidth ▸ hop) offset)⟩
  · obtain ⟨x, hx, hxwidth⟩ := hfloating.exists_read hf
    subst hfloat
    exact ⟨hexact (accesses_flw hfloating hbase hf offset), x, hx,
      hexact (accesses_fsw hbase hx hxwidth offset)⟩

/-- A base of twelve bits holds 20, and the last one of 16 bytes holds -128. It lies five bytes
before the base, and behind it there is no byte. -/
theorem accesses_of_base_of_negative :
    ∃ (s t : Datapath Ideal) (base c : Cell), s.memory.size = 16 ∧
      (s.memory.byte 15).toNat = 128 ∧ s.general.read 1 = .ok base ∧ base.width = 12 ∧
      base.bits = 20 ∧ s.execute (.load .signedByte 0 1 (-5)) = (t, .ok .next) ∧
      t.general.read 0 = .ok c ∧ (c.bits : Int) = -128 % 2 ^ 12 ∧
      ∃ a, s.execute (.store .byte 0 1 (-4)) = (s, .error (.addressOutOfRange a 16)) := by
  obtain ⟨m, -, hsound, -⟩ := @Machine.exists_make Ideal {} (by decide) (by decide) ⟨⟩
  obtain ⟨x, hx⟩ : ∃ x : Cell, x = ⟨12, 20, by decide, by decide, by decide⟩ := ⟨_, rfl⟩
  have hwidth : x.width = 12 := by rw [hx]
  have hbits : x.bits = 20 := by rw [hx]
  have hgeneral : Bank.Sound ⟨"r", x, #[x, x]⟩ 2 12 := by
    refine ⟨rfl, hwidth, fun c hc => ?_⟩
    obtain rfl : c = x := by simpa using hc
    exact ⟨hwidth, Bank.bits_lt_of_width hwidth⟩
  let s : Datapath Ideal :=
    { m.data with general := ⟨"r", x, #[x, x]⟩, memory := Memory.put ⟨16, ∅⟩ 15 128 }
  have hbyte : (s.memory.byte 15).toNat = 128 := by
    rw [Memory.byte_put, if_pos rfl]
    rfl
  have hloads (offset : Int32) := accesses_of_base (s := s) hgeneral hsound.data.floating
    (show 1 < 2 by decide) offset
  have hread : s.general.read 1 = .ok x := rfl
  obtain ⟨_, hbase, -, -, hsmall, haccess⟩ := hloads (-5)
  obtain ⟨_, hbase', -, -, -, haccess'⟩ := hloads (-4)
  obtain rfl := Except.ok.inj (hread.symm.trans hbase)
  obtain rfl := Except.ok.inj (hread.symm.trans hbase')
  have hbelow : x.bits < 2 ^ 63 := hsmall (by decide)
  obtain ⟨hload, -⟩ := haccess _ (.inr ⟨rfl, hbelow, show 16 < 2 ^ 63 by decide⟩)
  obtain ⟨-, hstore, -⟩ := haccess' _ (.inr ⟨rfl, hbelow, show 16 < 2 ^ 63 by decide⟩)
  rw [hbits] at hload hstore
  obtain ⟨t, ⟨c, b, hb, rfl, hc⟩, ht⟩ :=
    (hload .signedByte 0 (by decide : 8 ≤ 12) (by decide)).inside 15 rfl (by decide : 15 + 1 ≤ 16)
  obtain ⟨_, _, hstored⟩ := hstore .byte 0 trivial (by decide)
  obtain ⟨-, hcw, -⟩ := Bank.write_eq_ok.1 hb
  have hnumber : s.memory.number 15 LoadOp.signedByte.bytes = 128 := hbyte
  rw [hnumber, hcw.trans hwidth] at hc
  refine ⟨s, _, x, c, rfl, hbyte, rfl, hwidth, hbits, ht, Bank.read_of_write hb, hc, ?_⟩
  refine hstored.outside ?_
  exact (by decide : ¬ ((0 : Int) ≤ 20 + -4 ∧ (20 + -4 : Int) + 1 ≤ 16))

/-- The largest number that a base of 64 bits can hold. The byte behind it is the first one of the
memory. -/
theorem load_wraps :
    ∃ (s t : Datapath Ideal) (base c : Cell), s.memory.size = 16 ∧ s.general.read 2 = .ok base ∧
      base.bits = 2 ^ 64 - 1 ∧ ¬ base.bits + 1 + 1 ≤ s.memory.size ∧
      s.execute (.load .unsignedByte 1 2 1) = (t, .ok .next) ∧
      t.general.read 1 = .ok c ∧ c.bits = 42 := by
  obtain ⟨m, hmake⟩ : ∃ m : Machine Ideal, Machine.make
      { memorySize := 16, generalCount := 3, generalWidth := 64, floatCount := 1, qubits := 1 }
      ⟨⟩ = .ok m := ⟨_, rfl⟩
  obtain ⟨s, hs⟩ : ∃ s, (m.acts [.write (.byte 0 42), .write (.signed 2 (-1))]).data = s := ⟨_, rfl⟩
  have hrun : s.memory.size = 16 ∧
      s.general.read 2 = .ok ⟨64, 2 ^ 64 - 1, by decide, by decide, by decide⟩ ∧
      (s.execute (.load .unsignedByte 1 2 1)).2 = .ok .next ∧
      (s.execute (.load .unsignedByte 1 2 1)).1.general.read 1 =
        .ok ⟨64, 42, by decide, by decide, by decide⟩ := by
    cases hmake
    cases hs
    decide +kernel
  obtain ⟨hsize, hbase, hnext, hloaded⟩ := hrun
  exact ⟨s, _, _, _, hsize, hbase, rfl, by rw [hsize]; decide, Prod.ext rfl hnext, hloaded, rfl⟩

end Datapath

end Eqasm
