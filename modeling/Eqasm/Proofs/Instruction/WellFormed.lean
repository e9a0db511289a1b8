import Eqasm.Keyword

/-!
# Well-formed programs

The programs that a text can denote. Labels and the names of quantum operations are words that mean
nothing else (`IsName`), lists of qubits and bundles are not empty, and numbers lie in the ranges
that the text has for them: 64 bits for registers, 63 for qubits in lists, 15 for the constant of
an upper half. No label is carried twice.

All these conditions are decidable.
-/

namespace Eqasm

-- Conditions on all characters of a list are decided along the list, whatever else is in scope.
attribute [local instance (2000)] List.decidableBAll

/-! ## Names -/

/-- A letter or an underscore, and then letters, digits, underscores and dots. -/
def IsWord : List Char → Prop
  | [] => False
  | c :: others =>
    (c.isLower ∨ c = '_') ∧ ∀ d ∈ others, d.isLower ∨ d.isDigit ∨ d = '_' ∨ d = '.'

/-- The letter of a class of registers, and then a number. -/
def IsRegisterWord : List Char → Prop
  | [] => False
  | c :: digits => c ∈ ['r', 's', 't', 'q', 'f'] ∧ digits ≠ [] ∧ ∀ d ∈ digits, d.isDigit

/-- A word that can name a label or a quantum operation. -/
structure IsName (name : String) : Prop where
  isWord : IsWord name.toList
  not_register : ¬ IsRegisterWord name.toList
  not_keyword : ∀ k : Keyword, k.spelling ≠ name
  not_flag : ∀ f : Flag, f.name ≠ name

theorem Keyword.mem_all (k : Keyword) : k ∈ Keyword.all := by
  cases k with
  | alu op => cases op <;> decide
  | load op => cases op <;> decide
  | store op => cases op <;> decide
  | fpu op => cases op <;> decide
  | fcmp op => cases op <;> decide
  | branch r => cases r <;> decide
  | _ => decide

theorem Flag.mem_all (f : Flag) : f ∈ Flag.all := by
  cases f with
  | relation r => cases r <;> decide
  | _ => decide

instance : (text : List Char) → Decidable (IsWord text)
  | [] => inferInstanceAs (Decidable False)
  | _ :: _ => inferInstanceAs (Decidable (_ ∧ _))

instance : (text : List Char) → Decidable (IsRegisterWord text)
  | [] => inferInstanceAs (Decidable False)
  | _ :: _ => inferInstanceAs (Decidable (_ ∧ _))

theorem isName_iff {name : String} :
    IsName name ↔ IsWord name.toList ∧ ¬ IsRegisterWord name.toList ∧
      (∀ k ∈ Keyword.all, k.spelling ≠ name) ∧ ∀ f ∈ Flag.all, f.name ≠ name :=
  ⟨fun h => ⟨h.isWord, h.not_register, fun k _ => h.not_keyword k, fun f _ => h.not_flag f⟩,
    fun ⟨hw, hr, hk, hf⟩ => ⟨hw, hr, fun k => hk k k.mem_all, fun f => hf f f.mem_all⟩⟩

instance (name : String) : Decidable (IsName name) :=
  decidable_of_iff _ isName_iff.symm

/-! ## Instructions -/

/-- A number of 64 bits, as those of registers are. -/
def IsIndex (i : Nat) : Prop :=
  i ≤ 0xFFFFFFFFFFFFFFFF

/-- A number that fits in a signed integer of 64 bits, as those of listed qubits do. -/
def IsQubit (q : Nat) : Prop :=
  q ≤ 0x7FFFFFFFFFFFFFFF

/-- A quantum operation that a text can denote. -/
def MicroOp.WellFormed (o : MicroOp) : Prop :=
  match o.target with
  | .none => o.name = "qnop"
  | .single i | .pair i => IsName o.name ∧ IsIndex i

/-- An operation that a text can denote. -/
def Operation.WellFormed : Operation → Prop
  | .nop | .stop | .qwait _ => True
  | .smis si qubits => IsIndex si ∧ qubits ≠ [] ∧ ∀ q ∈ qubits, IsQubit q
  | .smit ti pairs => IsIndex ti ∧ pairs ≠ [] ∧ ∀ p ∈ pairs, IsQubit p.1 ∧ IsQubit p.2
  | .br _ label => IsName label
  | .qwaitr i | .fbr _ i | .ldi i _ => IsIndex i
  | .ldui rd rs imm => IsIndex rd ∧ IsIndex rs ∧ imm.toNat ≤ 0x7FFF
  | .not i j | .cmp i j | .fmr i j | .load _ i j _ | .store _ i j _ | .fcvtws i j | .fcvtsw i j
  | .flw i j _ | .fsw i j _ => IsIndex i ∧ IsIndex j
  | .alu _ i j k | .fpu _ i j k | .fcmp _ i j k => IsIndex i ∧ IsIndex j ∧ IsIndex k
  | .bundle _ ops => ops ≠ [] ∧ ∀ o ∈ ops, o.WellFormed

/-- An instruction that a text can denote. -/
structure Instruction.WellFormed (i : Instruction) : Prop where
  labels : ∀ label ∈ i.labels, IsName label
  operation : i.operation.WellFormed

/-- A program that a text can denote. -/
structure WellFormed (program : List Instruction) : Prop where
  instructions : ∀ i ∈ program, i.WellFormed
  labels_nodup : (program.flatMap (·.labels)).Nodup

instance (i : Nat) : Decidable (IsIndex i) :=
  inferInstanceAs (Decidable (_ ≤ _))

instance (q : Nat) : Decidable (IsQubit q) :=
  inferInstanceAs (Decidable (_ ≤ _))

instance : (o : MicroOp) → Decidable o.WellFormed
  | ⟨_, .none⟩ => inferInstanceAs (Decidable (_ = _))
  | ⟨_, .single _⟩ | ⟨_, .pair _⟩ => inferInstanceAs (Decidable (_ ∧ _))

instance : (o : Operation) → Decidable o.WellFormed
  | .nop | .stop | .qwait _ => inferInstanceAs (Decidable True)
  | .br _ _ => inferInstanceAs (Decidable (IsName _))
  | .qwaitr _ | .fbr _ _ | .ldi _ _ => inferInstanceAs (Decidable (IsIndex _))
  | .smis _ _ | .smit _ _ | .ldui _ _ _ | .not _ _ | .cmp _ _ | .fmr _ _ | .load _ _ _ _
  | .store _ _ _ _ | .fcvtws _ _ | .fcvtsw _ _ | .flw _ _ _ | .fsw _ _ _ | .alu _ _ _ _
  | .fpu _ _ _ _ | .fcmp _ _ _ _ | .bundle _ _ => inferInstanceAs (Decidable (_ ∧ _))

instance (i : Instruction) : Decidable i.WellFormed :=
  decidable_of_iff ((∀ label ∈ i.labels, IsName label) ∧ i.operation.WellFormed)
    ⟨fun h => ⟨h.1, h.2⟩, fun h => ⟨h.1, h.2⟩⟩

instance (program : List Instruction) : Decidable (WellFormed program) :=
  decidable_of_iff ((∀ i ∈ program, i.WellFormed) ∧ (program.flatMap (·.labels)).Nodup)
    ⟨fun h => ⟨h.1, h.2⟩, fun h => ⟨h.1, h.2⟩⟩

example : WellFormed [⟨["loop", "q_1.x"], .bundle 2 [⟨"cz", .pair 7⟩, .qnop]⟩] := by decide +kernel

example : ¬ WellFormed [⟨["r7"], .nop⟩] := by decide +kernel

end Eqasm
