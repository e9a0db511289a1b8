import Eqasm.Proofs.Statement.Grammar
import Eqasm.Proofs.Token.Spelling

/-!
# Statements are well-formed

A statement of tokens such as the lexer gives stands for well-formed operations
(`Denotes.wellFormed`): its tokens are numbers and names in range, and its forms keep the ranges of
numbers that are smaller.
-/

namespace Eqasm

variable {tokens : List Token}

/-- A list of the grammar is not empty, and its items have what their tokens give them. -/
theorem Listed.forall_mem {α : Type} {separator : Token} {Item : List Token → α → Prop}
    {P : α → Prop} {as : List α} (h : Listed separator Item tokens as)
    (hv : ∀ t ∈ tokens, t.Valid)
    (hi : ∀ tokens a, Item tokens a → (∀ t ∈ tokens, t.Valid) → P a) :
    as ≠ [] ∧ ∀ a ∈ as, P a := by
  induction h with
  | one h => exact ⟨by simp, by simpa using hi _ _ h hv⟩
  | cons h _ ih =>
    rw [List.forall_mem_append, List.forall_mem_cons] at hv
    exact ⟨by simp, List.forall_mem_cons.2 ⟨hi _ _ h hv.1, (ih hv.2.2).2⟩⟩

theorem AddressForm.isIndex {offset : Int32} {base : Nat} (h : AddressForm tokens offset base)
    (hv : ∀ t ∈ tokens, t.Valid) : IsIndex base :=
  hv (.register .general base) (by cases h <;> simp)

theorem MicroOpForm.wellFormed {o : MicroOp} (h : MicroOpForm tokens o)
    (hv : ∀ t ∈ tokens, t.Valid) : o.WellFormed := by
  cases h with
  | qnop => rfl
  | single name i | pair name i =>
    obtain ⟨hname, hindex, -⟩ := List.forall_mem_cons.1 hv |>.imp_right List.forall_mem_cons.1
    exact ⟨hname, hindex⟩

/-- The constant of an upper half has 15 bits. -/
theorem toNat_ofNat_upper {n : Nat} (h : n ≤ 0x7FFF) : (UInt32.ofNat n).toNat ≤ 0x7FFF := by
  have hlt : n < UInt32.size := Nat.lt_of_le_of_lt h (by decide)
  rwa [UInt32.toNat_ofNat_of_lt' hlt]

/-- **Statements of valid tokens stand for well-formed operations.** -/
theorem Denotes.wellFormed {operations : List Operation} (h : Denotes tokens operations)
    (hv : ∀ t ∈ tokens, t.Valid) : ∀ o ∈ operations, o.WellFormed := by
  have hbundle {tokens : List Token} {ops : List MicroOp} (h : Listed .bar MicroOpForm tokens ops)
      (hv : ∀ t ∈ tokens, t.Valid) : ops ≠ [] ∧ ∀ o ∈ ops, o.WellFormed :=
    h.forall_mem hv fun _ _ => MicroOpForm.wellFormed
  cases h with
  | smis si h =>
    have hsi : IsIndex si := hv (.register .single si) (by simp)
    have hlist := h.forall_mem (P := IsQubit) (by simp_all) (by rintro _ _ ⟨hq⟩ -; exact hq)
    exact List.forall_mem_singleton.2 ⟨hsi, hlist⟩
  | smit ti h =>
    have hti : IsIndex ti := hv (.register .pair ti) (by simp)
    have hlist := h.forall_mem (P := fun p => IsQubit p.1 ∧ IsQubit p.2) (by simp_all)
      (by rintro _ _ ⟨ha, hb⟩ -; exact ⟨ha, hb⟩)
    exact List.forall_mem_singleton.2 ⟨hti, hlist⟩
  | load op rd h | store op rd h | flw rd h | fsw rd h =>
    have hbase := h.isIndex (by simp_all)
    simp_all [Operation.WellFormed]
  | ldui rd rs h | lduiSame rd h =>
    have himm := toNat_ofNat_upper h
    simp_all [Operation.WellFormed]
  | bundle h => exact List.forall_mem_singleton.2 (hbundle h hv)
  | timed hd h | marked hd h => exact List.forall_mem_singleton.2 (hbundle h (by simp_all))
  | _ => simp_all [Operation.WellFormed]

end Eqasm
