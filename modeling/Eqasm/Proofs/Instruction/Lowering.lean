import Eqasm.Instruction.Listing
import Eqasm.Proofs.Instruction.Row
import Eqasm.Proofs.Text.Lowercase
import Eqasm.Proofs.Token.Lines

/-!
# Lowered listings

The written form of a well-formed instruction, lowered, is the text of its row
(`Instruction.lowers_text`). So the lexer finds in a listing the tokens of its row
(`tokenize_listing`).
-/

namespace Eqasm

/-- Numbers are spelled as they are written. -/
theorem Token.spelling_int (v : Int) : (int v).spelling = v.repr.toList := by
  rw [Int.repr_eq_if, spelling]
  by_cases hv : v < 0
  · rw [if_pos hv, if_neg (by omega), show (-v).toNat = v.natAbs by omega]
    simp
  · rw [if_neg hv, if_pos (by omega), show v.toNat = v.natAbs by omega]
    simp

/-! ## Lowering -/

namespace Lowers

/-- What words and numbers are made of is in lower case. -/
theorem of_isWordPart {w : List Char} (h : ∀ c ∈ w, isWordPart c) : Lowers w w := by
  have key : ∀ c, isWordPart c → c.toNat < 128 ∧ c.toLower = c := by
    intro c hc
    have hrange : c.toNat < 65 ∨ 90 < c.toNat ∧ c.toNat < 128 := by
      simp only [isWordPart, isLower_iff, Char.isDigit, Bool.or_eq_true, Bool.and_eq_true,
        decide_eq_true_eq, UInt32.le_iff_toNat_le, ge_iff_le] at hc
      rcases hc with ((⟨h₁, h₂⟩ | ⟨h₁, h₂⟩) | rfl) | rfl
      · exact .inr ⟨Nat.lt_of_lt_of_le (by decide) h₁, Nat.lt_of_le_of_lt h₂ (by decide)⟩
      · exact .inl (Nat.lt_of_le_of_lt h₂ (by decide))
      · exact .inr (by decide)
      · exact .inl (by decide)
    refine ⟨by omega, dif_neg ?_⟩
    rintro ⟨h₁, h₂⟩
    have h₁ : 65 ≤ c.toNat := UInt32.le_iff_toNat_le.1 h₁
    have h₂ : c.toNat ≤ 90 := UInt32.le_iff_toNat_le.1 h₂
    omega
  refine ⟨fun c hc => (key c (h c hc)).1, ?_⟩
  rw [List.map_congr_left fun c hc => (key c (h c hc)).2, List.map_id' w]

@[simp] theorem digits (n : Nat) : Lowers (Nat.toDigits 10 n) (Nat.toDigits 10 n) :=
  of_isWordPart fun _ hc =>
    isWordPart_of_isDigit (Nat.isDigit_of_mem_toDigits (by decide) (by decide) hc)

theorem word {w : List Char} (h : IsWord w) : Lowers w w := by
  refine of_isWordPart fun c hc => ?_
  rcases w with _ | ⟨d, others⟩
  · cases hc
  obtain ⟨hd, hothers⟩ := isWord_iff.1 h
  rcases List.mem_cons.1 hc with rfl | hc
  · exact isWordPart_of_isWordStart hd
  · exact hothers c hc

theorem int (v : Int) : Lowers v.repr.toList (Token.int v).spelling := by
  rw [← Token.spelling_int, Token.spelling]
  split <;> simp

/-- Lists are lowered item by item. -/
theorem intercalate {α : Type} {sep sep' : List Char} (hsep : Lowers sep sep') {f g : α → List Char}
    {l : List α} (h : ∀ a ∈ l, Lowers (f a) (g a)) :
    Lowers (sep.intercalate (l.map f)) (sep'.intercalate (l.map g)) := by
  induction l with
  | nil => simp
  | cons a l ih =>
    have ha := h a (by simp)
    have hl := ih fun b hb => h b (by simp [hb])
    cases l with
    | nil => simpa using ha
    | cons b l => simpa using ha.append (hsep.append hl)

end Lowers

theorem Row.text_intercalate (sep : Row) (rows : List Row) :
    Row.text (sep.intercalate rows) = (text sep).intercalate (rows.map text) := by
  induction rows with
  | nil => rfl
  | cons r rows ih =>
    cases rows with
    | nil => simp
    | cons q rows => simp_all

/-! ## Written forms -/

namespace Lowers

/-- A part in front that is lowered can be left out. -/
theorem append_iff {s s' : List Char} (hs : Lowers s s') {t t' : List Char} :
    Lowers (s ++ t) (s' ++ t') ↔ Lowers t t' := by
  refine ⟨fun h => ⟨fun c hc => h.ascii c (by simp [hc]), ?_⟩, hs.append⟩
  have := h.map_toLower
  rwa [List.map_append, hs.map_toLower, List.append_cancel_left_eq] at this

@[simp] theorem digits_append (n : Nat) {t t' : List Char} :
    Lowers (Nat.toDigits 10 n ++ t) (Nat.toDigits 10 n ++ t') ↔ Lowers t t' :=
  (digits n).append_iff

end Lowers

section

attribute [local simp] Row.one Row.number Row.register Row.list Row.command RegisterClass.sigil
  Operation.keyword Operation.operands

@[simp] theorem toList_toString (s : String) : (toString s).toList = s.toList := rfl

theorem lowers_address (offset : Int32) (base : Nat) :
    Lowers (addressText offset base).toList (Row.text (.address offset base)) := by
  simp [addressText, Row.address, (Lowers.int offset.toInt).append_iff]

theorem AluOp.lowers_mnemonic (op : AluOp) :
    Lowers op.mnemonic.toList (Keyword.alu op).spelling.toList := by
  cases op <;> simp [mnemonic, Keyword.spelling]

theorem LoadOp.lowers_mnemonic (op : LoadOp) :
    Lowers op.mnemonic.toList (Keyword.load op).spelling.toList := by
  cases op <;> simp [mnemonic, Keyword.spelling]

theorem StoreOp.lowers_mnemonic (op : StoreOp) :
    Lowers op.mnemonic.toList (Keyword.store op).spelling.toList := by
  cases op <;> simp [mnemonic, Keyword.spelling]

theorem FpuOp.lowers_mnemonic (op : FpuOp) :
    Lowers op.mnemonic.toList (Keyword.fpu op).spelling.toList := by
  cases op <;> simp [mnemonic, Keyword.spelling]

theorem FcmpOp.lowers_mnemonic (op : FcmpOp) :
    Lowers op.mnemonic.toList (Keyword.fcmp op).spelling.toList := by
  cases op <;> simp [mnemonic, Keyword.spelling]

/-- A list in braces is lowered item by item. -/
theorem lowers_braced {α : Type} {f : α → String} {g : α → Row} {l : List α}
    (h : ∀ a ∈ l, Lowers (f a).toList (Row.text (g a))) :
    Lowers (braced (l.map f)).toList (Row.text (.braced (l.map g))) := by
  have hsep : Lowers [',', ' '] [',', ' '] := by simp
  have hl := Lowers.intercalate hsep h
  have hend : Lowers ['\x7d'] ['\x7d'] := by simp
  have htext : Row.text (.braced (l.map g)) =
      '\x7b' :: ([',', ' '].intercalate (l.map fun a => Row.text (g a)) ++ ['\x7d']) := by
    simp [Row.braced, Row.text_intercalate, Function.comp_def]
  rw [htext]
  simpa [braced, Function.comp_def] using hl.append hend

theorem MicroOp.lowers_text {o : MicroOp} (h : o.WellFormed) :
    Lowers o.text.toList (Row.text o.row) := by
  obtain ⟨name, target⟩ := o
  cases target with
  | none => simp [text, row, Keyword.spelling]
  | single i | pair i => simp [text, row, (Lowers.word h.1.isWord).append_iff]

/-- **The written form of an operation, lowered, is the text of its row.** -/
theorem Operation.lowers_text {o : Operation} (h : o.WellFormed) :
    Lowers o.text.toList (Row.text o.row) := by
  cases o with
  | nop | stop | qwait | qwaitr | not | cmp | fmr | ldui | fcvtws | fcvtsw =>
    simp [text, row, Keyword.spelling]
  | ldi rd imm => simp [text, row, Keyword.spelling, Lowers.int imm.toInt]
  | br flag label =>
    have hf := Lowers.word flag.name_spec.1
    have hl := Lowers.word (IsName.isWord h)
    simp [text, row, Keyword.spelling, hf.append_iff, hl]
  | fbr flag rd =>
    have hf := Lowers.word flag.name_spec.1
    simp [text, row, Keyword.spelling, hf.append_iff]
  | alu op | fpu op | fcmp op => simp [text, row, op.lowers_mnemonic.append_iff]
  | load op | store op => simp [text, row, op.lowers_mnemonic.append_iff, lowers_address]
  | flw | fsw => simp [text, row, Keyword.spelling, lowers_address]
  | smis si qubits =>
    have hq : ∀ q ∈ qubits, Lowers (toString q).toList (Row.text (.number q)) := by simp
    simpa [text, row, Keyword.spelling] using lowers_braced hq
  | smit ti pairs =>
    have hp : ∀ p ∈ pairs, Lowers s!"({p.1}, {p.2})".toList (Row.text (.pair p)) := by
      simp [Row.pair]
    simpa [text, row, Keyword.spelling] using lowers_braced hp
  | bundle pi ops =>
    have hsep : Lowers [' ', '|', ' '] [' ', '|', ' '] := by simp
    have ho := Lowers.intercalate hsep fun o ho => MicroOp.lowers_text (h.2 o ho)
    simp [text, row, Keyword.spelling, Row.text_intercalate, Function.comp_def, ho]

theorem Instruction.lowers_text {i : Instruction} (h : i.WellFormed) :
    Lowers (i.text ++ "\n").toList (Row.text i.row) := by
  have hlabels : Lowers (String.join (i.labels.map (· ++ ": "))).toList
      (Row.text (labelRow i.labels)) := by
    have hl := h.labels
    generalize i.labels = labels at hl
    induction labels with
    | nil => simp [labelRow]
    | cons l labels ih =>
      have hw := Lowers.word (hl l (by simp)).isWord
      have hrest := ih fun k hk => hl k (by simp [hk])
      simpa [labelRow, hw.append_iff] using hrest
  have hend : Lowers ['\n'] ['\n'] := by simp
  simpa [Instruction.text, row] using
    hlabels.append ((Operation.lowers_text h.operation).append hend)

end

/-! ## Listings -/

/-- **The lexer finds in a listing the tokens of its row.** -/
theorem tokenize_listing {program : List Instruction} (h : ∀ i ∈ program, i.WellFormed) :
    ∃ ts, tokenize (listing program) = .ok ts ∧
      ts.map (·.token) = Row.tokens (program.flatMap Instruction.row) := by
  have hlowers : Lowers (listing program).toList (Row.text (program.flatMap Instruction.row)) := by
    rw [listing]
    induction program with
    | nil => simp
    | cons i program ih =>
      have hrest := ih fun j hj => h j (by simp [hj])
      have hi := Instruction.lowers_text (h i (by simp))
      simpa using hi.append hrest
  exact tokenize_of_row hlowers.lower_eq (Instruction.apart_rows program)
    (Instruction.valid_rows h)

end Eqasm
