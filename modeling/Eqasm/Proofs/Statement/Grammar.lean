import Eqasm.Proofs.Instruction.WellFormed
import Eqasm.Token

/-!
# The grammar of statements

Which tokens make a statement, and the operations that it stands for (`Denotes`): a mnemonic with
its operands, or a bundle of quantum operations. The grammar is given by its forms, apart from the
readers that follow it token by token.
-/

namespace Eqasm

/-- One or more items with a separator between each two. -/
inductive Listed {α : Type} (separator : Token) (Item : List Token → α → Prop) :
    List Token → List α → Prop
  | one {tokens : List Token} {a : α} (h : Item tokens a) : Listed separator Item tokens [a]
  | cons {tokens others : List Token} {a : α} {as : List α} (h : Item tokens a)
    (hs : Listed separator Item others as) :
    Listed separator Item (tokens ++ separator :: others) (a :: as)

/-- A qubit in a list, with a number that is not negative. Numbers of tokens have 64 bits. -/
inductive QubitForm : List Token → Nat → Prop
  | index {q : Nat} (h : IsQubit q) : QubitForm [.int q] q

/-- A pair of qubits in a list. -/
inductive PairForm : List Token → Nat × Nat → Prop
  | pair {a b : Nat} (ha : IsQubit a) (hb : IsQubit b) :
    PairForm [.lparen, .int a, .comma, .int b, .rparen] (a, b)

/-- A memory operand. Its offset is a signed number of 32 bits, and stands before its base or
behind it. -/
inductive AddressForm : List Token → Int32 → Nat → Prop
  | offsetFirst (offset : Int32) (base : Nat) :
    AddressForm [.int offset.toInt, .lparen, .register .general base, .rparen] offset base
  | baseFirst (offset : Int32) (base : Nat) :
    AddressForm [.register .general base, .lparen, .int offset.toInt, .rparen] offset base

/-- A quantum operation with its target register, or the one that does nothing. -/
inductive MicroOpForm : List Token → MicroOp → Prop
  | qnop : MicroOpForm [.keyword .qnop] .qnop
  | single (name : String) (i : Nat) :
    MicroOpForm [.ident name, .register .single i] ⟨name, .single i⟩
  | pair (name : String) (i : Nat) : MicroOpForm [.ident name, .register .pair i] ⟨name, .pair i⟩

/-- The distance of a bundle, an unsigned number of 32 bits. A comma may stand behind it. -/
inductive DistanceForm : List Token → UInt32 → Prop
  | plain (pi : UInt32) : DistanceForm [.int pi.toNat] pi
  | comma (pi : UInt32) : DistanceForm [.int pi.toNat, .comma] pi

/-- The range of constants for whole registers: signed numbers and bit patterns of 32 bits. -/
def IsImmediate (v : Int) : Prop :=
  -0x80000000 ≤ v ∧ v ≤ 0xFFFFFFFF

/-- The tokens are a statement that stands for the operations. -/
inductive Denotes : List Token → List Operation → Prop
  | nop : Denotes [.keyword .nop] [.nop]
  | stop : Denotes [.keyword .stop] [.stop]
  | qwait (n : UInt32) : Denotes [.keyword .qwait, .int n.toNat] [.qwait n]
  | qwaitr (rs : Nat) : Denotes [.keyword .qwaitr, .register .general rs] [.qwaitr rs]
  | smis (si : Nat) {tokens : List Token} {qubits : List Nat}
    (h : Listed .comma QubitForm tokens qubits) :
    Denotes (.keyword .smis :: .register .single si :: .comma :: .lbrace :: (tokens ++ [.rbrace]))
      [.smis si qubits]
  | smit (ti : Nat) {tokens : List Token} {pairs : List (Nat × Nat)}
    (h : Listed .comma PairForm tokens pairs) :
    Denotes (.keyword .smit :: .register .pair ti :: .comma :: .lbrace :: (tokens ++ [.rbrace]))
      [.smit ti pairs]
  | not (rd rt : Nat) :
    Denotes [.keyword .not, .register .general rd, .comma, .register .general rt] [.not rd rt]
  | cmp (rs rt : Nat) :
    Denotes [.keyword .cmp, .register .general rs, .comma, .register .general rt] [.cmp rs rt]
  | br (flag : Flag) (label : String) :
    Denotes [.keyword .br, .flag flag, .comma, .ident label] [.br flag label]
  | fbr (flag : Flag) (rd : Nat) :
    Denotes [.keyword .fbr, .flag flag, .comma, .register .general rd] [.fbr flag rd]
  | fmr (rd qs : Nat) :
    Denotes [.keyword .fmr, .register .general rd, .comma, .register .qubit qs] [.fmr rd qs]
  | ldi (rd : Nat) {v : Int} (h : IsImmediate v) :
    Denotes [.keyword .ldi, .register .general rd, .comma, .int v] [.ldi rd (.ofInt v)]
  | ldui (rd rs : Nat) {n : Nat} (h : n ≤ 0x7FFF) :
    Denotes [.keyword .ldui, .register .general rd, .comma, .register .general rs, .comma, .int n]
      [.ldui rd rs (.ofNat n)]
  /-- Without a source register the destination is the source. -/
  | lduiSame (rd : Nat) {n : Nat} (h : n ≤ 0x7FFF) :
    Denotes [.keyword .ldui, .register .general rd, .comma, .int n] [.ldui rd rd (.ofNat n)]
  | alu (op : AluOp) (rd rs rt : Nat) :
    Denotes [.keyword (.alu op), .register .general rd, .comma, .register .general rs, .comma,
      .register .general rt] [.alu op rd rs rt]
  | load (op : LoadOp) (rd : Nat) {tokens : List Token} {offset : Int32} {rt : Nat}
    (h : AddressForm tokens offset rt) :
    Denotes (.keyword (.load op) :: .register .general rd :: .comma :: tokens)
      [.load op rd rt offset]
  | store (op : StoreOp) (rs : Nat) {tokens : List Token} {offset : Int32} {rt : Nat}
    (h : AddressForm tokens offset rt) :
    Denotes (.keyword (.store op) :: .register .general rs :: .comma :: tokens)
      [.store op rs rt offset]
  | fcvtws (rd fs : Nat) :
    Denotes [.keyword .fcvtws, .register .general rd, .comma, .register .float fs] [.fcvtws rd fs]
  | fcvtsw (fd rs : Nat) :
    Denotes [.keyword .fcvtsw, .register .float fd, .comma, .register .general rs] [.fcvtsw fd rs]
  | flw (fd : Nat) {tokens : List Token} {offset : Int32} {rt : Nat}
    (h : AddressForm tokens offset rt) :
    Denotes (.keyword .flw :: .register .float fd :: .comma :: tokens) [.flw fd rt offset]
  | fsw (fs : Nat) {tokens : List Token} {offset : Int32} {rt : Nat}
    (h : AddressForm tokens offset rt) :
    Denotes (.keyword .fsw :: .register .float fs :: .comma :: tokens) [.fsw fs rt offset]
  | fpu (op : FpuOp) (fd fs ft : Nat) :
    Denotes [.keyword (.fpu op), .register .float fd, .comma, .register .float fs, .comma,
      .register .float ft] [.fpu op fd fs ft]
  | fcmp (op : FcmpOp) (rd fs ft : Nat) :
    Denotes [.keyword (.fcmp op), .register .general rd, .comma, .register .float fs, .comma,
      .register .float ft] [.fcmp op rd fs ft]
  /-- The constant is loaded into the destination first. -/
  | addi (rd rs : Nat) {v : Int} (h : IsImmediate v) :
    Denotes [.keyword .addi, .register .general rd, .comma, .register .general rs, .comma, .int v]
      [.ldi rd (.ofInt v), .alu .add rd rs rd]
  | bra (label : String) : Denotes [.keyword .bra, .ident label] [.br .always label]
  | goto (label : String) : Denotes [.keyword .goto, .ident label] [.br .always label]
  | brn (label : String) : Denotes [.keyword .brn, .ident label] [.br .never label]
  | branch (r : Relation) (rs rt : Nat) (label : String) :
    Denotes [.keyword (.branch r), .register .general rs, .comma, .register .general rt, .comma,
      .ident label] [.cmp rs rt, .br (.relation r) label]
  | bundle {tokens : List Token} {ops : List MicroOp} (h : Listed .bar MicroOpForm tokens ops) :
    Denotes tokens [.bundle 1 ops]
  | timed {before tokens : List Token} {pi : UInt32} {ops : List MicroOp}
    (hd : DistanceForm before pi) (h : Listed .bar MicroOpForm tokens ops) :
    Denotes (before ++ tokens) [.bundle pi ops]
  | marked {before tokens : List Token} {pi : UInt32} {ops : List MicroOp}
    (hd : DistanceForm before pi) (h : Listed .bar MicroOpForm tokens ops) :
    Denotes (.keyword .bs :: (before ++ tokens)) [.bundle pi ops]

/-- A statement does not start like the declaration of a label. -/
theorem Denotes.ne_label {tokens : List Token} {operations : List Operation}
    (h : Denotes tokens operations) (name : String) (rest : List Token) :
    tokens ≠ .ident name :: .colon :: rest := by
  cases h with
  | bundle h =>
    cases h with
    | one h | cons h => cases h <;> simp
  | timed hd => cases hd <;> simp
  | _ => simp

theorem Denotes.ne_nil {tokens : List Token} {operations : List Operation}
    (h : Denotes tokens operations) : tokens ≠ [] := by
  cases h with
  | bundle h =>
    cases h with
    | one h => cases h <;> simp
    | cons h => simp
  | timed hd => cases hd <;> simp
  | _ => simp

/-- A statement stands for at least one operation. -/
theorem Denotes.operations_ne_nil {tokens : List Token} {operations : List Operation}
    (h : Denotes tokens operations) : operations ≠ [] := by
  cases h <;> simp

/-! ## Line ends and colons -/

theorem Listed.notMem {α : Type} {separator t : Token} {Item : List Token → α → Prop}
    {tokens : List Token} {as : List α} (h : Listed separator Item tokens as)
    (hs : t ≠ separator) (hi : ∀ tokens a, Item tokens a → t ∉ tokens) : t ∉ tokens := by
  induction h with
  | one h => exact hi _ _ h
  | cons h _ ih => simp [hi _ _ h, hs, ih]

section

variable {t : Token} {tokens : List Token} (ht : t = .newline ∨ t = .colon)
include ht

theorem QubitForm.notMem {q : Nat} (h : QubitForm tokens q) : t ∉ tokens := by
  cases h
  rcases ht with rfl | rfl <;> simp

theorem PairForm.notMem {p : Nat × Nat} (h : PairForm tokens p) : t ∉ tokens := by
  cases h
  rcases ht with rfl | rfl <;> simp

theorem AddressForm.notMem {offset : Int32} {base : Nat} (h : AddressForm tokens offset base) :
    t ∉ tokens := by
  rcases ht with rfl | rfl <;> cases h <;> simp

theorem MicroOpForm.notMem {o : MicroOp} (h : MicroOpForm tokens o) : t ∉ tokens := by
  rcases ht with rfl | rfl <;> cases h <;> simp

theorem DistanceForm.notMem {pi : UInt32} (h : DistanceForm tokens pi) : t ∉ tokens := by
  rcases ht with rfl | rfl <;> cases h <;> simp

/-- Neither a line end nor a colon is part of a statement. -/
theorem Denotes.notMem {operations : List Operation} (h : Denotes tokens operations) :
    t ∉ tokens := by
  have hseparator : t ≠ .comma ∧ t ≠ .bar := by rcases ht with rfl | rfl <;> simp
  have hbundle {tokens : List Token} {ops : List MicroOp} (h : Listed .bar MicroOpForm tokens ops) :
      t ∉ tokens :=
    h.notMem hseparator.2 fun _ _ h => h.notMem ht
  cases h with
  | smis si h =>
    have hlist := h.notMem hseparator.1 fun _ _ h => h.notMem ht
    rcases ht with rfl | rfl <;> simp [hlist]
  | smit ti h =>
    have hlist := h.notMem hseparator.1 fun _ _ h => h.notMem ht
    rcases ht with rfl | rfl <;> simp [hlist]
  | load op rd h | store op rd h | flw rd h | fsw rd h =>
    have haddress := h.notMem ht
    rcases ht with rfl | rfl <;> simp [haddress]
  | bundle h => exact hbundle h
  | timed hd h | marked hd h =>
    have hdistance := hd.notMem ht
    have hoperations := hbundle h
    rcases ht with rfl | rfl <;> simp [hdistance, hoperations]
  | _ => rcases ht with rfl | rfl <;> simp

end

/-- **A statement has no line end.** -/
theorem Denotes.newline_notMem {tokens : List Token} {operations : List Operation}
    (h : Denotes tokens operations) : .newline ∉ tokens :=
  h.notMem (.inl rfl)

/-- **A statement has no colon.** -/
theorem Denotes.colon_notMem {tokens : List Token} {operations : List Operation}
    (h : Denotes tokens operations) : .colon ∉ tokens :=
  h.notMem (.inr rfl)

end Eqasm
