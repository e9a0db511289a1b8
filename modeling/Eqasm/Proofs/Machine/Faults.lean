import Eqasm.Proofs.Cell.Views
import Eqasm.Proofs.Instruction.WellFormed
import Eqasm.Proofs.Machine.Sound

/-!
# Faults of operations

What operations other than bundles can fail with. No backend has a part in it, and if an operation
is well-formed and registers have 32 bits, it does not fail for widths, numbers or lists that do not
fit either. What it can be blamed for then is left: registers, addresses and qubits that do not
exist, target registers that were not loaded, lists that are too long or have an entry twice, and
divisions by zero (`Fault.Genuine`).

Every operation is followed once, through the widths of the cells that it works on, with a set of
faults that must be admitted in any case and of those that need not be if everything fits
(`Fault.Admits`, `Datapath.gives_compute`).
-/

namespace Eqasm

-- Powers are the ones of the core library, whatever else is in scope.
attribute [local instance (2000)] instPowNat

-- To unfold the shifts on a cell that is not known takes too long; `Cell.signed_eq` does without.
attribute [local irreducible] Cell.signed

/-! ## Kinds of faults -/

/-- A fault of the program: something that it names does not exist or was not loaded, a list is too
long or has an entry twice, or a divisor is zero. -/
def Fault.Genuine : Fault → Prop
  | .registerOutOfRange _ _ _ | .addressOutOfRange _ _ | .targetListTooLong _ _ _ _
  | .duplicateTarget _ _ | .degeneratePair _ | .qubitOutOfRange _ _ | .unsetTargetRegister _ _
  | .divideByZero => True
  | .widthMismatch _ _ | .valueOutOfRange _ _ | .unsupportedFloatWidth _ | .fieldOutOfRange _ _ _
  | .emptyTargetList _ _ | .unsupportedWidth _ | .invalidMeasurement _ _
  | .backendRefused _ => False

/-- A fault of a width, a number or a list that does not fit where the instruction set puts it. -/
def Fault.IsMisfit : Fault → Prop
  | .widthMismatch _ _ | .valueOutOfRange _ _ | .unsupportedFloatWidth _ | .fieldOutOfRange _ _ _
  | .emptyTargetList _ _ | .unsupportedWidth _ => True
  | _ => False

/-- The fault that a backend does not have a qubit. -/
def Fault.IsRefusal : Fault → Prop
  | .backendRefused _ => True
  | _ => False

/-- Faults that include the genuine ones and, unless everything fits, those of what does not fit. -/
structure Fault.Admits (F : Fault → Prop) (Fits : Prop) : Prop where
  genuine : ∀ {cause}, Genuine cause → F cause
  misfit : ¬ Fits → ∀ {cause}, IsMisfit cause → F cause

/-- If everything fits, only genuine faults are left. -/
theorem Fault.admits_genuine : Admits Genuine True where
  genuine h := h
  misfit h := absurd trivial h

/-- Whether or not everything fits, no fault is a refusal. -/
theorem Fault.admits_not_isRefusal : Admits (¬ IsRefusal ·) False where
  genuine {cause} h hr := by cases cause <;> first | exact h | exact hr
  misfit _ {cause} h hr := by cases cause <;> first | exact h | exact hr

section

variable {F : Fault → Prop} {Fits : Prop} (hF : Fault.Admits F Fits)
include hF

/-! ## Cells -/

namespace Cell

omit hF in
/-- A cell of 32 bits. -/
def IsWord (c : Cell) : Prop :=
  c.width = 32

theorem gives_ofUnsigned {n width : Nat} (h : Fits → width = 32 ∧ n < 2 ^ (32 : Nat)) :
    Gives F (fun c => Fits → c.IsWord) (ofUnsigned n width) := by
  unfold ofUnsigned
  split
  · split
    · exact gives_ok fun hfits => (h hfits).1
    · rename_i hn
      exact gives_error (hF.misfit (fun hfits => hn ((h hfits).1 ▸ (h hfits).2)) trivial)
  · rename_i hwidth
    refine gives_error (hF.misfit (fun hfits => hwidth ?_) trivial)
    rw [(h hfits).1]
    decide

theorem gives_zero {width : Nat} (h : Fits → width = 32) :
    Gives F (fun c => Fits → c.IsWord) (zero width) := by
  unfold zero
  split
  · exact gives_ok h
  · rename_i hwidth
    exact gives_error (hF.misfit (fun hfits => hwidth (by rw [h hfits]; decide)) trivial)

theorem gives_ofSigned {v : Int} {width : Nat}
    (h : Fits → width = 32 ∧ -2 ^ (31 : Nat) ≤ v ∧ v < 2 ^ (31 : Nat)) :
    Gives F (fun c => Fits → c.IsWord) (ofSigned v width) := by
  refine (gives_zero hF fun hfits => (h hfits).1).bind fun c hc => ?_
  refine .ite (fun _ => gives_pure hc) fun hrange => ?_
  refine gives_error (hF.misfit (fun hfits => ?_) trivial)
  obtain ⟨rfl, hv⟩ := h hfits
  exact hrange hv

theorem gives_toWord {c : Cell} (h : Fits → c.IsWord) : Gives F (fun _ => True) c.toWord :=
  .ite (fun _ => gives_ok trivial) fun hne =>
    gives_error (hF.misfit (fun hfits => hne (h hfits)) trivial)

theorem gives_toSingle {c : Cell} (h : Fits → c.IsWord) : Gives F (fun _ => True) c.toSingle :=
  .ite (fun _ => gives_ok trivial) fun hne =>
    gives_error (hF.misfit (fun hfits => hne (h hfits)) trivial)

theorem gives_ofSameWidth {a b : Cell} {result : Except Fault Cell} (ha : Fits → a.IsWord)
    (hb : Fits → b.IsWord) (h : Gives F (fun c => Fits → c.IsWord) result) :
    Gives F (fun c => Fits → c.IsWord) (ofSameWidth a b result) :=
  .ite (fun _ => h) fun hne =>
    gives_error (hF.misfit (fun hfits => hne ((hb hfits).trans (ha hfits).symm)) trivial)

/-- Operations on words give words, unless a divisor is zero. -/
theorem gives_apply (op : AluOp) {a b : Cell} (ha : Fits → a.IsWord) (hb : Fits → b.IsWord) :
    Gives F (fun c => Fits → c.IsWord) (op.apply a b) := by
  cases op with
  | div | rem =>
    exact gives_ofSameWidth hF ha hb
      (.ite (fun _ => gives_error (hF.genuine trivial)) fun _ => gives_ok ha)
  | _ => exact gives_ofSameWidth hF ha hb (gives_ok ha)

theorem gives_single (f : Float32 → Float32 → Float32) {a b : Cell} (ha : Fits → a.IsWord)
    (hb : Fits → b.IsWord) : Gives F (fun c => Fits → c.IsWord) (single f a b) :=
  gives_ofSameWidth hF ha hb ((gives_toSingle hF ha).bind fun _ _ => (gives_toSingle hF hb).bind
    fun _ _ => gives_pure fun _ => rfl)

/-- The upper bits of a word can be replaced. -/
theorem gives_splice {c : Cell} (h : Fits → c.IsWord) (n : Nat) :
    Gives F (fun c => Fits → c.IsWord) (c.splice 17 32 n) := by
  refine .ite (fun _ => gives_ok h) fun hrange => gives_error (hF.misfit (fun hfits => ?_) trivial)
  exact hrange ⟨by decide, Nat.le_of_eq (h hfits).symm⟩

omit hF in
theorem signed_byte (b : UInt8) :
    -2 ^ (31 : Nat) ≤ (byte b).signed ∧ (byte b).signed < 2 ^ (31 : Nat) := by
  obtain ⟨hle, hlt⟩ := (byte b).twosComplement_range
  have hhalf : 2 ^ ((byte b).width - 1) = 128 := rfl
  rw [signed_eq]
  omega

/-- Bytes can be extended to words. -/
theorem gives_extend (b : UInt8) {width : Nat} (h : Fits → width = 32) :
    Gives F (fun c => Fits → c.IsWord) ((byte b).signExtend width) ∧
      Gives F (fun c => Fits → c.IsWord) ((byte b).zeroExtend width) := by
  have hnarrow (hlt : width < (byte b).width) (hfits : Fits) : False := by
    rw [h hfits] at hlt
    exact absurd hlt (by decide : ¬ 32 < 8)
  constructor
  · refine .ite (fun hlt => gives_error (hF.misfit (hnarrow hlt) trivial)) fun _ => ?_
    exact gives_ofSigned hF fun hfits => ⟨h hfits, signed_byte b⟩
  · refine .ite (fun hlt => gives_error (hF.misfit (hnarrow hlt) trivial)) fun _ => ?_
    exact gives_ofUnsigned hF fun hfits => ⟨h hfits, Nat.lt_trans b.toNat_lt (by decide)⟩

end Cell

/-! ## Registers and memory -/

namespace Bank

variable {b : Bank} {count : Nat}

theorem gives_read (h : Fits → b.Sound count 32) (i : Nat) :
    Gives F (fun c => Fits → c.IsWord) (b.read i) := by
  unfold read
  split
  · rename_i c hc
    exact gives_ok fun hfits => ((h hfits).cells c (Array.mem_of_getElem? hc)).1
  · exact gives_error (hF.genuine trivial)

theorem gives_write (h : Fits → b.Sound count 32) (i : Nat) {c : Cell} (hc : Fits → c.IsWord) :
    Gives F (fun _ => True) (b.write i c) := by
  refine .ite (fun _ => ?_) fun _ => gives_error (hF.genuine trivial)
  refine .ite (fun _ => gives_ok trivial) fun hne => ?_
  refine gives_error (hF.misfit (fun hfits => ?_) trivial)
  exact hne ((hc hfits).trans (h hfits).width_eq.symm)

theorem gives_readSingle (h : Fits → b.Sound count 32) (i : Nat) :
    Gives F (fun _ => True) (b.readSingle i) :=
  (gives_read hF h i).bind fun _ hc => Cell.gives_toSingle hF hc

end Bank

theorem Memory.gives_access {α : Type} (m : Memory) (a n : Nat) (result : α) :
    Gives F (fun _ => True) (m.access a n result) :=
  .ite (fun _ => gives_ok trivial) fun _ => gives_error (hF.genuine trivial)

namespace TargetRegisters

theorem gives_checkRegister (file : String) (index count : Nat) :
    Gives F (fun _ => True) (checkRegister file index count) :=
  .ite (fun _ => gives_ok trivial) fun _ => gives_error (hF.genuine trivial)

theorem gives_checkList {γ : Type} [DecidableEq γ] (t : TargetRegisters) (file : String)
    (index : Nat) {entries : List γ} (h : Fits → entries ≠ []) :
    Gives F (fun _ => True) (t.checkList file index entries) :=
  .ite (fun hnil => gives_error (hF.misfit (fun hfits => h hfits hnil) trivial)) fun _ =>
    .ite (fun _ => gives_error (hF.genuine trivial)) fun _ =>
      .ite (fun _ => gives_ok trivial) fun _ => gives_error (hF.genuine trivial)

theorem gives_checkQubit (t : TargetRegisters) (q : Nat) :
    Gives F (fun _ => True) (t.checkQubit q) :=
  .ite (fun _ => gives_ok trivial) fun _ => gives_error (hF.genuine trivial)

theorem gives_checkPair (t : TargetRegisters) (p : Nat × Nat) :
    Gives F (fun _ => True) (t.checkPair p) :=
  (gives_checkQubit hF t p.1).bind fun _ _ => (gives_checkQubit hF t p.2).bind fun _ _ =>
    .ite (fun _ => gives_error (hF.genuine trivial)) fun _ => gives_pure trivial

/-- A list that is not empty is loaded or refused for its entries. -/
theorem gives_setSingle (t : TargetRegisters) (i : Nat) {qs : List Nat} (h : Fits → qs ≠ []) :
    Gives F (fun _ => True) ((setSingle i qs).exec t) := by
  rw [setSingle_eq, Work.exec_attempt]
  exact (gives_checkRegister hF _ _ _).bind fun _ _ => (gives_checkList hF t _ _ h).bind fun _ _ =>
    (gives_forM (gives_checkQubit hF t) qs).bind fun _ _ => gives_pure trivial

theorem gives_setPair (t : TargetRegisters) (i : Nat) {ps : List (Nat × Nat)}
    (h : Fits → ps ≠ []) : Gives F (fun _ => True) ((setPair i ps).exec t) := by
  rw [setPair_eq, Work.exec_attempt]
  exact (gives_checkRegister hF _ _ _).bind fun _ _ => (gives_checkList hF t _ _ h).bind fun _ _ =>
    (gives_forM (gives_checkPair hF t) ps).bind fun _ _ => gives_pure trivial

theorem gives_entries {γ : Type} (file : String) (registers : Array (Option γ)) (i : Nat) :
    Gives F (fun _ => True) (entries file registers i) := by
  unfold entries
  split
  · exact gives_error (hF.genuine trivial)
  · exact gives_error (hF.genuine trivial)
  · exact gives_ok trivial

end TargetRegisters

/-! ## Operations -/

theorem MicroOp.gives_calls (t : TargetRegisters) (o : MicroOp) :
    Gives F (fun _ => True) (o.calls t) := by
  obtain ⟨name, target⟩ := o
  cases target with
  | none => exact gives_ok trivial
  | single i => exact (TargetRegisters.gives_entries hF _ _ i).bind fun _ _ => gives_pure trivial
  | pair i => exact (TargetRegisters.gives_entries hF _ _ i).bind fun _ _ => gives_pure trivial

theorem gives_resolve (t : TargetRegisters) (ops : List MicroOp) :
    Gives F (fun _ => True) (resolve t ops) := by
  induction ops with
  | nil => exact gives_ok trivial
  | cons o ops ih =>
    exact (o.gives_calls hF t).bind fun _ _ => ih.bind fun _ _ => gives_pure trivial

namespace Datapath

variable {β : Type} {s : Datapath β} {count floatCount : Nat}

theorem gives_writeGeneral (hg : Fits → s.general.Sound count 32) (i : Nat) {c : Cell}
    (hc : Fits → c.IsWord) : Gives F (fun _ => True) (s.writeGeneral i c) :=
  (Bank.gives_write hF hg i hc).bind fun _ _ => gives_pure trivial

theorem gives_writeUnsigned (hg : Fits → s.general.Sound count 32) (i : Nat) {n : Nat}
    (h : Fits → n < 2 ^ (32 : Nat)) : Gives F (fun _ => True) (s.writeUnsigned i n) := by
  refine (Cell.gives_ofUnsigned hF fun hfits => ⟨(hg hfits).width_eq, h hfits⟩).bind fun c hc => ?_
  exact gives_writeGeneral hF hg i hc

theorem gives_writeSigned (hg : Fits → s.general.Sound count 32) (i : Nat) (v : Int32) :
    Gives F (fun _ => True) (s.writeSigned i v.toInt) := by
  refine (Cell.gives_ofSigned hF fun hfits => ?_).bind fun c hc => gives_writeGeneral hF hg i hc
  exact ⟨(hg hfits).width_eq, Int32.le_toInt v, Int32.toInt_lt v⟩

theorem gives_address (hg : Fits → s.general.Sound count 32) (rt : Nat) (offset : Int32) :
    Gives F (fun _ => True) (s.address rt offset) := by
  refine (Bank.gives_read hF hg rt).bind fun base _ => ?_
  exact .ite (fun _ => gives_pure trivial) fun _ => gives_error (hF.genuine trivial)

/-- Words and extended bytes are loaded as words. -/
theorem gives_loaded (hg : Fits → s.general.Sound count 32) (a : Nat) (op : LoadOp) :
    Gives F (fun c => Fits → c.IsWord) (s.loaded a op) := by
  have hextend (b : UInt8) := Cell.gives_extend hF b fun hfits => (hg hfits).width_eq
  cases op with
  | word => exact (s.memory.gives_access hF a 4 _).bind fun _ _ => gives_pure fun _ => rfl
  | signedByte => exact (s.memory.gives_access hF a 1 _).bind fun b _ => (hextend b).1
  | unsignedByte => exact (s.memory.gives_access hF a 1 _).bind fun b _ => (hextend b).2

theorem gives_writeFloating (hf : Fits → s.floating.Sound floatCount 32) (i : Nat) {c : Cell}
    (hc : Fits → c.IsWord) : Gives F (fun _ => True) (s.writeFloating i c) :=
  (Bank.gives_write hF hf i hc).bind fun _ _ => gives_pure trivial

theorem gives_stored (s : Datapath β) (a : Nat) {c : Cell} (hc : Fits → c.IsWord) (op : StoreOp) :
    Gives F (fun _ => True) (s.stored a c op) := by
  cases op with
  | word =>
    refine (Cell.gives_toWord hF hc).bind fun w _ => ?_
    rw [Memory.writeWord_eq, Work.exec_attempt]
    exact s.memory.gives_access hF a 4 _
  | byte =>
    rw [stored, Memory.writeByte_eq, Work.exec_attempt]
    exact s.memory.gives_access hF a 1 _

theorem gives_result (h : Fits → ∀ r ∈ s.results, r ≤ 1) (q : Nat) :
    Gives F (fun outcome => Fits → outcome ≤ 1) (s.result q) := by
  unfold result
  split
  · rename_i outcome houtcome
    exact gives_ok fun hfits => h hfits outcome (Array.mem_of_getElem? houtcome)
  · exact gives_error (hF.genuine trivial)

/-- **The faults of operations other than bundles.** Everything fits if the operation is
well-formed, registers have 32 bits and results are outcomes. -/
theorem gives_compute (hg : Fits → s.general.Sound count 32)
    (hf : Fits → s.floating.Sound floatCount 32) (hr : Fits → ∀ r ∈ s.results, r ≤ 1)
    {o : Operation} (ho : Fits → o.WellFormed) : Gives F (fun _ => True) (s.compute o) := by
  have hread := Bank.gives_read hF hg
  have hreadFloating := Bank.gives_read hF hf
  have hsingle := Bank.gives_readSingle hF hf
  have hbit (p : Bool) (_ : Fits) : (if p then 1 else 0) < 2 ^ (32 : Nat) := by
    cases p <;> decide
  cases o with
  | nop | stop | qwait | br | bundle => exact gives_pure trivial
  | qwaitr rs => exact (hread rs).bind fun _ _ => gives_pure trivial
  | smis si qubits =>
    exact (s.targets.gives_setSingle hF si fun hfits => (ho hfits).2.1).bind fun _ _ =>
      gives_pure trivial
  | smit ti pairs =>
    exact (s.targets.gives_setPair hF ti fun hfits => (ho hfits).2.1).bind fun _ _ =>
      gives_pure trivial
  | not rd rt => exact (hread rt).bind fun c hc => gives_writeGeneral hF hg rd hc
  | cmp rs rt => exact (hread rs).bind fun _ _ => (hread rt).bind fun _ _ => gives_pure trivial
  | fbr flag rd => exact gives_writeUnsigned hF hg rd (hbit _)
  | fmr rd qs =>
    refine (gives_result hF hr qs).bind fun outcome hle => ?_
    exact gives_writeUnsigned hF hg rd fun hfits => Nat.lt_of_le_of_lt (hle hfits) (by decide)
  | ldi rd imm => exact gives_writeSigned hF hg rd imm
  | ldui rd rs imm =>
    exact (hread rs).bind fun c hc => (Cell.gives_splice hF hc _).bind fun d hd =>
      gives_writeGeneral hF hg rd hd
  | alu op rd rs rt =>
    exact (hread rs).bind fun a ha => (hread rt).bind fun b hb =>
      (Cell.gives_apply hF op ha hb).bind fun c hc => gives_writeGeneral hF hg rd hc
  | load op rd rt offset =>
    exact (gives_address hF hg rt offset).bind fun a _ => (gives_loaded hF hg a op).bind fun c hc =>
      gives_writeGeneral hF hg rd hc
  | store op rs rt offset =>
    exact (gives_address hF hg rt offset).bind fun a _ => (hread rs).bind fun c hc =>
      (s.gives_stored hF a hc op).bind fun _ _ => gives_pure trivial
  | fcvtws rd fs => exact (hsingle fs).bind fun x _ => gives_writeSigned hF hg rd x.toInt32
  | fcvtsw fd rs => exact (hread rs).bind fun _ _ => gives_writeFloating hF hf fd fun _ => rfl
  | flw fd rt offset =>
    exact (gives_address hF hg rt offset).bind fun a _ =>
      (s.memory.gives_access hF a 4 _).bind fun w _ => gives_writeFloating hF hf fd fun _ => rfl
  | fsw fs rt offset =>
    exact (gives_address hF hg rt offset).bind fun a _ => (hreadFloating fs).bind fun c hc =>
      (s.gives_stored hF a hc .word).bind fun _ _ => gives_pure trivial
  | fpu op fd fs ft =>
    exact (hreadFloating fs).bind fun a ha => (hreadFloating ft).bind fun b hb =>
      (Cell.gives_single hF op.apply ha hb).bind fun c hc => gives_writeFloating hF hf fd hc
  | fcmp op rd fs ft =>
    exact (hsingle fs).bind fun _ _ => (hsingle ft).bind fun _ _ =>
      gives_writeUnsigned hF hg rd (hbit _)

end Datapath

end

/-! ## Both cases -/

/-- The registers of a machine have 32 bits. -/
structure Config.IsStandard (config : Config) : Prop where
  general : config.generalWidth = 32
  floating : config.floatWidth = 32

namespace Datapath

variable {β : Type} {config : Config} {s : Datapath β}

/-- **Operations other than bundles are refused by no backend.** -/
theorem not_isRefusal_of_compute {o : Operation} {cause : Fault}
    (h : s.compute o = .error cause) : ¬ cause.IsRefusal := by
  have hg : False → s.general.Sound 0 32 := False.elim
  have hf : False → s.floating.Sound 0 32 := False.elim
  exact (gives_compute Fault.admits_not_isRefusal hg hf False.elim False.elim).error h

/-- **Operations other than bundles fail for genuine reasons only**, if they are well-formed and
registers have 32 bits. -/
theorem Sound.genuine_of_compute (h : s.Sound config) (hc : config.IsStandard) {o : Operation}
    (ho : o.WellFormed) {cause : Fault} (he : s.compute o = .error cause) : cause.Genuine :=
  (gives_compute Fault.admits_genuine (fun _ => hc.general ▸ h.general)
    (fun _ => hc.floating ▸ h.floating) (fun _ => h.results_le) fun _ => ho).error he

end Datapath

end Eqasm
