import Eqasm.Proofs.Instruction.Row
import Eqasm.Proofs.Statement.Grammar

/-!
# Operations as statements

The tokens of a well-formed operation's row are a statement that stands for the operation
(`Operation.denotes_row`).
-/

namespace Eqasm

theorem Operation.tokens_row (o : Operation) :
    o.row.tokens = .keyword o.keyword :: (Row.list o.operands).tokens := by
  rw [row]
  cases o.operands with
  | nil => rfl
  | cons r rs => simp [Row.command]

/-- Rows with a separator between each two are a list of the grammar. -/
theorem listed_intercalate {α : Type} {separator : Token} {Item : List Token → α → Prop} {sep : Row}
    (hsep : sep.tokens = [separator]) {row : α → Row} {as : List α} (hne : as ≠ [])
    (h : ∀ a ∈ as, Item (row a).tokens a) :
    Listed separator Item (Row.tokens (sep.intercalate (as.map row))) as := by
  induction as with
  | nil => exact absurd rfl hne
  | cons a as ih =>
    obtain ⟨ha, has⟩ := List.forall_mem_cons.1 h
    cases as with
    | nil => exact .one (by simpa using ha)
    | cons b as =>
      have hlist := ih (by simp) has
      rw [List.map_cons] at hlist
      rw [List.map_cons, List.map_cons, List.intercalate_cons_cons, Row.tokens_append,
        Row.tokens_append, hsep, List.append_assoc]
      exact .cons ha hlist

section

attribute [local simp] Row.list Row.number Row.register Row.one Row.pair Row.address Row.braced
  Operation.operands Operation.keyword

theorem Row.addressForm (offset : Int32) (base : Nat) :
    AddressForm (Row.address offset base).tokens offset base := by
  simpa using AddressForm.offsetFirst offset base

theorem MicroOp.form_row {o : MicroOp} (h : o.WellFormed) : MicroOpForm o.row.tokens o := by
  obtain ⟨name, target⟩ := o
  cases target with
  | none =>
    obtain rfl : name = "qnop" := h
    exact .qnop
  | single i => exact .single name i
  | pair i => exact .pair name i

/-- **The row of a well-formed operation is a statement that stands for it.** -/
theorem Operation.denotes_row {o : Operation} (h : o.WellFormed) : Denotes o.row.tokens [o] := by
  rw [tokens_row]
  cases o with
  | smis si qubits =>
    have hq : Listed .comma QubitForm (Row.list (qubits.map Row.number)).tokens qubits :=
      listed_intercalate rfl h.2.1 fun q hq => .index (h.2.2 q hq)
    simpa using Denotes.smis si hq
  | smit ti pairs =>
    have hform (p : Nat × Nat) (ha : IsQubit p.1) (hb : IsQubit p.2) :
        PairForm (Row.pair p).tokens p := by simpa using PairForm.pair ha hb
    have hp : Listed .comma PairForm (Row.list (pairs.map Row.pair)).tokens pairs :=
      listed_intercalate rfl h.2.1 fun p hp => hform p (h.2.2 p hp).1 (h.2.2 p hp).2
    simpa using Denotes.smit ti hp
  | ldi rd imm =>
    have himm : IsImmediate imm.toInt := by
      have hl := Int32.le_toInt imm
      have hg := Int32.toInt_lt imm
      simp only [IsImmediate]
      omega
    simpa using Denotes.ldi rd himm
  | ldui rd rs imm => simpa using Denotes.ldui rd rs h.2.2
  | load op rd rt offset => simpa using Denotes.load op rd (Row.addressForm offset rt)
  | store op rs rt offset => simpa using Denotes.store op rs (Row.addressForm offset rt)
  | flw fd rt offset => simpa using Denotes.flw fd (Row.addressForm offset rt)
  | fsw fs rt offset => simpa using Denotes.fsw fs (Row.addressForm offset rt)
  | bundle pi ops =>
    have hops : Listed .bar MicroOpForm
        (Row.tokens ([none, some .bar, none].intercalate (ops.map MicroOp.row))) ops :=
      listed_intercalate rfl h.1 fun o ho => MicroOp.form_row (h.2 o ho)
    simpa using Denotes.marked (.comma pi) hops
  | _ => constructor

end

end Eqasm
