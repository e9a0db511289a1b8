import Eqasm.Proofs.Token.Row

/-!
# Rows of instructions

The canonical row of an instruction: its labels, its mnemonic and its operands with commas between
them. The words and numbers of a program's row stand apart (`Instruction.apart_rows`), and the
tokens of a well-formed program are such as the lexer gives (`Instruction.valid_rows`).
-/

namespace Eqasm

/-! ## Rows -/

namespace Row

/-- A row of one token. -/
def one (t : Token) : Row :=
  [some t]

/-- A number that is not negative. -/
def number (n : Nat) : Row :=
  one (.int n)

/-- A register or a qubit. -/
def register (c : RegisterClass) (i : Nat) : Row :=
  one (.register c i)

/-- Items with commas between them. -/
def list (items : List Row) : Row :=
  [some .comma, none].intercalate items

/-- A list in braces. -/
def braced (items : List Row) : Row :=
  some .lbrace :: (list items ++ [some .rbrace])

/-- A pair of qubits. -/
def pair (p : Nat × Nat) : Row :=
  some .lparen :: (list [number p.1, number p.2] ++ [some .rparen])

/-- A memory operand. -/
def address (offset : Int32) (base : Nat) : Row :=
  some (.int offset.toInt) :: some .lparen :: (register .general base ++ [some .rparen])

/-- A keyword with its operands. -/
def command (k : Keyword) : List Row → Row
  | [] => one (.keyword k)
  | operands => some (.keyword k) :: none :: list operands

end Row

/-- The row of a quantum operation. -/
def MicroOp.row (o : MicroOp) : Row :=
  match o.target with
  | .none => .one (.keyword .qnop)
  | .single i => some (.ident o.name) :: none :: Row.register .single i
  | .pair i => some (.ident o.name) :: none :: Row.register .pair i

namespace Operation

/-- The keyword that an operation is written with. -/
def keyword : Operation → Keyword
  | nop => .nop
  | stop => .stop
  | qwait _ => .qwait
  | qwaitr _ => .qwaitr
  | smis _ _ => .smis
  | smit _ _ => .smit
  | not _ _ => .not
  | cmp _ _ => .cmp
  | br _ _ => .br
  | fbr _ _ => .fbr
  | fmr _ _ => .fmr
  | ldi _ _ => .ldi
  | ldui _ _ _ => .ldui
  | alu op _ _ _ => .alu op
  | load op _ _ _ => .load op
  | store op _ _ _ => .store op
  | fcvtws _ _ => .fcvtws
  | fcvtsw _ _ => .fcvtsw
  | flw _ _ _ => .flw
  | fsw _ _ _ => .fsw
  | fpu op _ _ _ => .fpu op
  | fcmp op _ _ _ => .fcmp op
  | bundle _ _ => .bs

/-- The operands that an operation is written with. -/
def operands : Operation → List Row
  | nop | stop => []
  | qwait imm => [.number imm.toNat]
  | qwaitr rs => [.register .general rs]
  | smis si qubits => [.register .single si, .braced (qubits.map .number)]
  | smit ti pairs => [.register .pair ti, .braced (pairs.map .pair)]
  | not rd rt => [.register .general rd, .register .general rt]
  | cmp rs rt => [.register .general rs, .register .general rt]
  | br flag label => [.one (.flag flag), .one (.ident label)]
  | fbr flag rd => [.one (.flag flag), .register .general rd]
  | fmr rd qs => [.register .general rd, .register .qubit qs]
  | ldi rd imm => [.register .general rd, .one (.int imm.toInt)]
  | ldui rd rs imm => [.register .general rd, .register .general rs, .number imm.toNat]
  | alu _ rd rs rt => [.register .general rd, .register .general rs, .register .general rt]
  | load _ rd rt offset => [.register .general rd, .address offset rt]
  | store _ rs rt offset => [.register .general rs, .address offset rt]
  | fcvtws rd fs => [.register .general rd, .register .float fs]
  | fcvtsw fd rs => [.register .float fd, .register .general rs]
  | flw fd rt offset => [.register .float fd, .address offset rt]
  | fsw fs rt offset => [.register .float fs, .address offset rt]
  | fpu _ fd fs ft => [.register .float fd, .register .float fs, .register .float ft]
  | fcmp _ rd fs ft => [.register .general rd, .register .float fs, .register .float ft]
  | bundle pi ops =>
    [.number pi.toNat, [none, some .bar, none].intercalate (ops.map MicroOp.row)]

/-- The row of an operation. -/
def row (o : Operation) : Row :=
  .command o.keyword o.operands

end Operation

namespace Instruction

/-- The row of labels in front of an operation. -/
def labelRow (labels : List String) : Row :=
  labels.flatMap fun label => [some (.ident label), some .colon, none]

/-- The row of an instruction, with the end of its line. -/
def row (i : Instruction) : Row :=
  labelRow i.labels ++ (i.operation.row ++ [some .newline])

end Instruction

/-! ## Words and numbers stand apart -/

namespace Row

@[simp] theorem apart_nil : Apart [] :=
  List.isChain_nil

@[simp] theorem apart_one (t : Token) : Apart (one t) :=
  List.isChain_singleton _

theorem apart_number (n : Nat) : Apart (number n) :=
  apart_one _

theorem apart_register (c : RegisterClass) (i : Nat) : Apart (register c i) :=
  apart_one _

theorem apart_list {items : List Row} (h : ∀ r ∈ items, Apart r) : Apart (list items) :=
  apart_intercalate (by simp) (by decide) h

theorem apart_between {r : Row} {p q : Token} (hp : p.isSign) (hq : q.isSign) (h : Apart r) :
    Apart (some p :: (r ++ [some q])) := by
  rw [apart_cons_of_isBreak (by simpa [isBreak] using hp),
    apart_append_cons (by simpa [isBreak] using hq)]
  exact ⟨h, apart_nil⟩

theorem apart_braced {items : List Row} (h : ∀ r ∈ items, Apart r) : Apart (braced items) :=
  apart_between rfl rfl (apart_list h)

theorem apart_pair (p : Nat × Nat) : Apart (pair p) :=
  apart_between rfl rfl (apart_list (by simp [apart_number]))

theorem apart_address (offset : Int32) (base : Nat) : Apart (address offset base) := by
  have h := apart_between (p := .lparen) (q := .rparen) rfl rfl (apart_register .general base)
  exact (apart_append_cons (r := one _) rfl).2 ⟨apart_one _, (apart_cons_of_isBreak rfl).1 h⟩

theorem apart_command (k : Keyword) {operands : List Row} (h : ∀ r ∈ operands, Apart r) :
    Apart (command k operands) := by
  cases operands with
  | nil => exact apart_one _
  | cons r operands => exact (apart_append_cons (r := one _) rfl).2 ⟨apart_one _, apart_list h⟩

end Row

theorem MicroOp.apart_row (o : MicroOp) : o.row.Apart := by
  obtain ⟨name, target⟩ := o
  cases target with
  | none => exact Row.apart_one _
  | single i | pair i =>
    exact (Row.apart_append_cons (r := Row.one _) rfl).2 ⟨Row.apart_one _, Row.apart_one _⟩

theorem Operation.apart_row (o : Operation) : o.row.Apart := by
  refine Row.apart_command _ ?_
  cases o with
  | smis si qubits =>
    have hq : ∀ r ∈ qubits.map Row.number, r.Apart :=
      List.forall_mem_map.2 fun q _ => Row.apart_number q
    simp [operands, Row.apart_register, Row.apart_braced hq]
  | smit ti pairs =>
    have hp : ∀ r ∈ pairs.map Row.pair, r.Apart :=
      List.forall_mem_map.2 fun p _ => Row.apart_pair p
    simp [operands, Row.apart_register, Row.apart_braced hp]
  | bundle pi ops =>
    have ho : Row.Apart ([none, some .bar, none].intercalate (ops.map MicroOp.row)) :=
      Row.apart_intercalate (by simp) (by decide) (List.forall_mem_map.2 fun o _ => o.apart_row)
    simp [operands, Row.apart_number, ho]
  | _ => simp [operands, Row.apart_number, Row.apart_register, Row.apart_address]

theorem Instruction.apart_row_append (i : Instruction) {rest : Row} (h : rest.Apart) :
    (i.row ++ rest).Apart := by
  have hbody : Row.Apart (i.operation.row ++ some .newline :: rest) :=
    (Row.apart_append_cons rfl).2 ⟨i.operation.apart_row, h⟩
  rw [row, labelRow]
  induction i.labels with
  | nil => simpa using hbody
  | cons l labels ih =>
    -- the colon sets the label apart from what stands behind it
    have hl := (Row.apart_append_cons (p := some .colon) rfl).2
      ⟨Row.apart_one (.ident l), (Row.apart_cons_of_isBreak (p := none) rfl).2 ih⟩
    simpa [Row.one] using hl

/-- Words and numbers stand apart in the row of a program. -/
theorem Instruction.apart_rows (program : List Instruction) :
    Row.Apart (program.flatMap row) := by
  induction program with
  | nil => exact Row.apart_nil
  | cons i program ih => exact i.apart_row_append ih

/-! ## Validity -/

/-- A valid token that ends no line. -/
def Token.Inline (t : Token) : Prop :=
  t.Valid ∧ t ≠ .newline

section

attribute [local simp] Row.one Row.number Row.register Row.list Row.command Row.address
  Operation.keyword Operation.operands Token.Inline

theorem Token.valid_natCast {n : Nat} (h : IsQubit n) : (Token.int n).Valid := by
  have h : n ≤ 0x7FFFFFFFFFFFFFFF := h
  exact ⟨by omega, by omega⟩

@[simp] theorem Token.valid_int32 (v : Int32) : (Token.int v.toInt).Valid := by
  have hl := Int32.le_toInt v
  have hu := Int32.toInt_lt v
  exact ⟨by omega, by omega⟩

@[simp] theorem Token.valid_uint32 (v : UInt32) : (Token.int v.toNat).Valid := by
  have hv := v.toNat_lt
  exact valid_natCast (by simp only [IsQubit]; omega)

theorem Row.inline_braced {items : List Row} (h : ∀ r ∈ items, r.All Token.Inline) :
    (braced items).All Token.Inline := by
  have hsep : All Token.Inline [some .comma, none] := by simp
  simpa [braced] using hsep.intercalate h

theorem MicroOp.inline_row {o : MicroOp} (h : o.WellFormed) : o.row.All Token.Inline := by
  obtain ⟨name, target⟩ := o
  cases target with
  | none => simp [row]
  | single i | pair i =>
    obtain ⟨hn, hi⟩ : IsName name ∧ IsIndex i := h
    simp [row, hn, hi]

theorem Operation.inline_row {o : Operation} (h : o.WellFormed) : o.row.All Token.Inline := by
  cases o with
  | smis si qubits =>
    obtain ⟨hi, -, hqubits⟩ := h
    have hq : ∀ r ∈ qubits.map Row.number, r.All Token.Inline := by
      refine List.forall_mem_map.2 fun q hq => ?_
      simp [Token.valid_natCast (hqubits q hq)]
    simp [row, hi, Row.inline_braced hq]
  | smit ti pairs =>
    obtain ⟨hi, -, hpairs⟩ := h
    have hp : ∀ r ∈ pairs.map Row.pair, r.All Token.Inline := by
      refine List.forall_mem_map.2 fun p hp => ?_
      obtain ⟨ha, hb⟩ := hpairs p hp
      simp [Row.pair, Token.valid_natCast ha, Token.valid_natCast hb]
    simp [row, hi, Row.inline_braced hp]
  | bundle pi ops =>
    have hsep : Row.All Token.Inline [none, some .bar, none] := by simp
    have ho := hsep.intercalate
      (List.forall_mem_map.2 fun o ho => MicroOp.inline_row (h.2 o ho))
    simp [row, ho]
  | nop | stop | qwait => simp [row]
  | br f label =>
    have h : IsName label := h
    simp [row, h]
  | _ => simp_all [row, WellFormed]

theorem Instruction.inline_labelRow {labels : List String} (h : ∀ l ∈ labels, IsName l) :
    (labelRow labels).All Token.Inline := by
  rw [labelRow]
  induction labels with
  | nil => simp
  | cons l labels ih => simpa [h l (by simp)] using ih fun k hk => h k (by simp [hk])

end

theorem Instruction.valid_row {i : Instruction} (h : i.WellFormed) : i.row.All Token.Valid := by
  have hlabels : (labelRow i.labels).All Token.Valid :=
    fun t ht => (inline_labelRow h.labels t ht).1
  have hoperation : i.operation.row.All Token.Valid :=
    fun t ht => (Operation.inline_row h.operation t ht).1
  simp [row, hlabels, hoperation]

theorem Instruction.valid_rows {program : List Instruction} (h : ∀ i ∈ program, i.WellFormed) :
    Row.All Token.Valid (program.flatMap row) := by
  induction program with
  | nil => exact Row.all_nil
  | cons i program ih =>
    have hrest := ih fun j hj => h j (by simp [hj])
    simp [Instruction.valid_row (h i (by simp)), hrest]

end Eqasm
