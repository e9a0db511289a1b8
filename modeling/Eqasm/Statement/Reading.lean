import Eqasm.Statement
import Eqasm.Statement.Reader

/-!
# Reading statements

The grammar of statements, read token by token. A statement is a mnemonic with its operands or a
bundle of quantum operations. `Statement.read` reads one, and `readBody` reads what a line holds
behind its labels and takes the end of the line too.
-/

namespace Eqasm

namespace Reader

variable {α β : Type}

/-! ## Operands -/

/-- An integer. -/
def integer : Reader Int :=
  take .integer Token.int? rfl

/-- An integer in the range of a quantity. -/
def number (q : Quantity) : Reader Int :=
  integer.checked fun value =>
    if q.least ≤ value ∧ value ≤ q.greatest then none else some (.outOfRange q value)

/-- A register of one class. -/
def register (c : RegisterClass) : Reader Nat :=
  take (.register c) (Token.register? c) rfl

/-- A condition flag. -/
def flag : Reader Flag :=
  take .flag Token.flag? rfl

/-- The name of a label. -/
def label : Reader String :=
  take .label Token.ident? rfl

/-- A comma. -/
def comma : Reader Unit :=
  sign .comma nofun

/-- A comma and what follows it. -/
def andThen (p : Reader α) : Reader α := do
  comma
  p

/-- A qubit. -/
def qubit : Reader Nat :=
  return (← number .qubit).toNat

/-- A pair of qubits in parentheses. -/
def qubitPair : Reader (Nat × Nat) := do
  sign .lparen nofun
  let a ← qubit
  let b ← andThen qubit
  sign .rparen nofun
  return (a, b)

/-- A list in braces. -/
def inBraces (item : Reader α) : Reader (List α) := do
  sign .lbrace nofun
  let items ← list .comma nofun item
  sign .rbrace nofun
  return items

/-- A constant for a whole register. -/
def immediate : Reader Int32 :=
  return .ofInt (← number .immediate)

/-- A distance from a base address. -/
def offset : Reader Int32 :=
  return .ofInt (← number .offset)

/-- A memory operand, `offset(base)` or `base(offset)`. -/
def address : Reader (Int32 × Nat) := do
  match ← accept (Token.register? .general) rfl with
  | some base =>
    sign .lparen nofun
    let distance ← offset
    sign .rparen nofun
    return (distance, base)
  | none =>
    let distance ← offset
    sign .lparen nofun
    let base ← register .general
    sign .rparen nofun
    return (distance, base)

/-- A source register with a comma behind it. Without one the destination is the source. -/
def sourceOr (rd : Nat) : Reader Nat := do
  match ← accept (Token.register? .general) rfl with
  | some rs =>
    comma
    return rs
  | none => return rd

/-! ## Quantum bundles -/

/-- The target register of a quantum operation. -/
def target : Reader Target :=
  take .targetRegister Token.target? rfl

/-- The name of a quantum operation. -/
def gate : Reader String :=
  take .quantumOperation Token.ident? rfl

/-- A quantum operation. -/
def microOp : Reader MicroOp := do
  if ← eat (.keyword .qnop) nofun then return .qnop
  else
    let name ← gate
    return ⟨name, ← target⟩

/-- The distance of a bundle from the previous one, with an optional comma behind it. -/
def parallelism : Reader UInt32 := do
  let value ← number .parallelism
  let _ ← eat .comma nofun
  return .ofNat value.toNat

/-- The quantum operations of a bundle. -/
def microOps : Reader (List MicroOp) :=
  list .bar nofun microOp

/-- The distance of a bundle, which is 1 if it is not stated. A marked bundle must state it. -/
def distance (marked : Bool) : Reader UInt32 := do
  if marked || ((← peek).bind Token.int?).isSome then parallelism else return 1

/-- A bundle, which may be marked. -/
def bundle : Reader Operation := do
  let marked ← eat (.keyword .bs) nofun
  let pi ← distance marked
  return .bundle pi (← microOps)

/-! ## Statements -/

/-- Three operands with commas between them. -/
def three (first : Reader α) (others : Reader β) : Reader (α × β × β) := do
  let a ← first
  let b ← andThen others
  let c ← andThen others
  return (a, b, c)

/-- The operands behind a mnemonic. The two words of bundles are no mnemonics. -/
def operands : Keyword → Reader Statement
  | .nop => return .operation .nop
  | .stop => return .operation .stop
  | .qwait => return .operation (.qwait (.ofNat (← number .wait).toNat))
  | .qwaitr => return .operation (.qwaitr (← register .general))
  | .smis => do
    let si ← register .single
    return .operation (.smis si (← andThen (inBraces qubit)))
  | .smit => do
    let ti ← register .pair
    return .operation (.smit ti (← andThen (inBraces qubitPair)))
  | .not => do
    let rd ← register .general
    return .operation (.not rd (← andThen (register .general)))
  | .cmp => do
    let rs ← register .general
    return .operation (.cmp rs (← andThen (register .general)))
  | .br => do
    let f ← flag
    return .operation (.br f (← andThen label))
  | .fbr => do
    let f ← flag
    return .operation (.fbr f (← andThen (register .general)))
  | .fmr => do
    let rd ← register .general
    return .operation (.fmr rd (← andThen (register .qubit)))
  | .ldi => do
    let rd ← register .general
    return .operation (.ldi rd (← andThen immediate))
  | .ldui => do
    let rd ← register .general
    let rs ← andThen (sourceOr rd)
    return .operation (.ldui rd rs (.ofNat (← number .upper).toNat))
  | .alu op => do
    let (rd, rs, rt) ← three (register .general) (register .general)
    return .operation (.alu op rd rs rt)
  | .load op => do
    let rd ← register .general
    let (distance, rt) ← andThen address
    return .operation (.load op rd rt distance)
  | .store op => do
    let rs ← register .general
    let (distance, rt) ← andThen address
    return .operation (.store op rs rt distance)
  | .fcvtws => do
    let rd ← register .general
    return .operation (.fcvtws rd (← andThen (register .float)))
  | .fcvtsw => do
    let fd ← register .float
    return .operation (.fcvtsw fd (← andThen (register .general)))
  | .flw => do
    let fd ← register .float
    let (distance, rt) ← andThen address
    return .operation (.flw fd rt distance)
  | .fsw => do
    let fs ← register .float
    let (distance, rt) ← andThen address
    return .operation (.fsw fs rt distance)
  | .fpu op => do
    let (fd, fs, ft) ← three (register .float) (register .float)
    return .operation (.fpu op fd fs ft)
  | .fcmp op => do
    let (rd, fs, ft) ← three (register .general) (register .float)
    return .operation (.fcmp op rd fs ft)
  | .addi => do
    let rd ← register .general
    let rs ← andThen (register .general)
    return .addi rd rs (← andThen immediate)
  | .bra => return .operation (.br .always (← label))
  | .goto => return .operation (.br .always (← label))
  | .brn => return .operation (.br .never (← label))
  | .branch r => do
    let rs ← register .general
    let rt ← andThen (register .general)
    return .branch r rs rt (← andThen label)
  | .bs | .qnop => unexpected .instruction

/-- Whether a bundle starts with the token. -/
def startsBundle : Token → Bool
  | .keyword .bs | .keyword .qnop | .int _ | .ident _ => true
  | _ => false

end Reader

/-- Reads a statement. -/
def Statement.read : Reader Statement := do
  if (← Reader.peek).any Reader.startsBundle then return .operation (← Reader.bundle)
  else Reader.operands (← Reader.take .instruction Token.keyword? rfl)

/-- Takes the end of a line, which may be the end of the text. -/
def lineEnd : Work Cursor Diagnostic Unit :=
  fun c => if c.atLineEnd then (c.advance, .ok ()) else (c, .error (c.unexpected .endOfLine))

/-- Reads what a line holds behind its labels: nothing, or one statement. -/
def readBody : Work Cursor Diagnostic (Option Statement) :=
  fun c =>
    if c.atLineEnd then (c.advance, .ok none)
    else (do
      let s ← Statement.read.run
      lineEnd
      return some s) c

/-- The ways in which a line is read behind its labels. -/
inductive ReadsBody (c : Cursor) : Cursor → Except Diagnostic (Option Statement) → Prop
  | empty (hc : c.atLineEnd) : ReadsBody c c.advance (.ok none)
  | problem {d : Cursor} {problem : Diagnostic} (hc : ¬ c.atLineEnd)
    (h : Statement.read.run c = (d, .error problem)) : ReadsBody c d (.error problem)
  | statement {d : Cursor} {s : Statement} (hc : ¬ c.atLineEnd)
    (h : Statement.read.run c = (d, .ok s)) (hd : d.atLineEnd) :
    ReadsBody c d.advance (.ok (some s))
  | more {d : Cursor} {s : Statement} (hc : ¬ c.atLineEnd)
    (h : Statement.read.run c = (d, .ok s)) (hd : ¬ d.atLineEnd) :
    ReadsBody c d (.error (d.unexpected .endOfLine))

theorem readsBody_of_readBody {c d : Cursor} {r : Except Diagnostic (Option Statement)}
    (h : readBody c = (d, r)) : ReadsBody c d r := by
  rw [readBody] at h
  split at h
  · cases h
    exact .empty ‹_›
  · rename_i hc
    rcases hs : Statement.read.run c with ⟨e, problem | s⟩
    · rw [Work.bind_of_error hs] at h
      cases h
      exact .problem hc hs
    · rw [Work.bind_of_ok hs] at h
      by_cases he : e.atLineEnd
      · have hend : lineEnd e = (e.advance, .ok ()) := if_pos he
        rw [Work.bind_of_ok hend] at h
        cases h
        exact .statement hc hs he
      · have hend : lineEnd e = (e, .error (e.unexpected .endOfLine)) := if_neg he
        rw [Work.bind_of_error hend] at h
        cases h
        exact .more hc hs he

/-! ## Progress -/

theorem Statement.suffix_read {c d : Cursor} {r : Except Diagnostic Statement}
    (h : read.run c = (d, r)) : d.left <:+ c.left := by
  have hsuffix := read.suffix_run c
  rwa [h] at hsuffix

theorem ReadsBody.suffix {c d : Cursor} {r : Except Diagnostic (Option Statement)}
    (h : ReadsBody c d r) : d.left <:+ c.left := by
  cases h with
  | empty => exact List.tail_suffix _
  | problem _ h | more _ h => exact Statement.suffix_read h
  | statement _ h => exact (List.tail_suffix _).trans (Statement.suffix_read h)

/-- A line without a problem takes at least one token, if any is left. -/
theorem ReadsBody.length_lt {c d : Cursor} {s? : Option Statement} (h : ReadsBody c d (.ok s?))
    (hc : c.left ≠ []) : d.left.length < c.left.length := by
  cases h with
  | empty =>
    obtain ⟨t, rest, hleft⟩ := List.exists_cons_of_ne_nil hc
    exact Cursor.length_advance (by simp [Cursor.next?, hleft])
  | @statement e s hend h he =>
    have hsuffix := Statement.suffix_read h
    have hne : e.left.length ≠ c.left.length := by
      intro hlength
      -- a statement without tokens would be read where the line has not ended
      rw [Cursor.atLineEnd, Cursor.next?, hsuffix.eq_of_length hlength] at he
      exact hend he
    exact Nat.lt_of_le_of_lt (List.tail_suffix _).length_le
      (Nat.lt_of_le_of_ne hsuffix.length_le hne)

end Eqasm
