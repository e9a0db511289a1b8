import Eqasm.Token.Lexer

/-!
# Numerals

How numbers are written in lower case: in one of three bases and with any number of leading zeros
(`Spells`). The lexer reads a numeral as the number that it spells, or finds it too large
(`lexeme?_of_spells`). What stands behind it must not go on with it (`Breaks`).
-/

namespace Eqasm

/-! ## Digits -/

theorem digitValue_digitChar {d : Nat} (h : d < 16) : digitValue d.digitChar = d := by
  have hall : ∀ d < 16, digitValue d.digitChar = d := by decide
  exact hall d h

/-- The digits of a number are read as the number, in every base. -/
theorem numeral_toDigits {base : Nat} (hbase : 1 < base ∧ base ≤ 16) (n : Nat) :
    numeral base (Nat.toDigits base n) = n := by
  induction n using Nat.strongRecOn with
  | ind n ih =>
    rw [Nat.toDigits_eq_if hbase.1]
    split
    · rw [numeral, List.foldl_cons, List.foldl_nil, digitValue_digitChar (by omega), Nat.mul_zero,
        Nat.zero_add]
    · have hquotient := ih (n / base) (Nat.div_lt_self (by omega) hbase.1)
      have hlast : n % base < 16 := Nat.lt_of_lt_of_le (Nat.mod_lt n (by omega)) hbase.2
      rw [numeral] at hquotient ⊢
      rw [List.foldl_append, hquotient, List.foldl_cons, List.foldl_nil,
        digitValue_digitChar hlast, Nat.div_add_mod]

theorem exists_of_mem_toDigits {base : Nat} (hbase : 1 < base) {n : Nat} {c : Char}
    (hc : c ∈ Nat.toDigits base n) : ∃ d < base, c = d.digitChar := by
  induction n using Nat.strongRecOn with
  | ind n ih =>
    rw [Nat.toDigits_eq_if hbase] at hc
    split at hc
    · next hlt => exact ⟨n, hlt, List.mem_singleton.1 hc⟩
    · rcases List.mem_append.1 hc with hc | hc
      · exact ih (n / base) (Nat.div_lt_self (by omega) hbase) hc
      · exact ⟨n % base, Nat.mod_lt n (by omega), List.mem_singleton.1 hc⟩

/-- The digits of a number behind some zeros. -/
def padded (base zeros n : Nat) : List Char :=
  .replicate zeros '0' ++ Nat.toDigits base n

theorem padded_ne_nil (base zeros n : Nat) : padded base zeros n ≠ [] :=
  List.append_ne_nil_of_right_ne_nil _ Nat.toDigits_ne_nil

/-- Leading zeros do not count. -/
theorem numeral_padded {base : Nat} (hbase : 1 < base ∧ base ≤ 16) (zeros n : Nat) :
    numeral base (padded base zeros n) = n := by
  have hzero : base * 0 + digitValue '0' = 0 := by
    rw [Nat.mul_zero]
    rfl
  induction zeros with
  | zero => exact numeral_toDigits hbase n
  | succ zeros ih =>
    rw [padded, List.replicate_succ, List.cons_append, numeral, List.foldl_cons, hzero]
    exact ih

/-- The digits of a number in some base are digits of this base. -/
theorem forall_mem_padded {base : Nat} (hbase : 1 < base) {p : Char → Bool}
    (hp : ∀ d < base, p d.digitChar) (zeros n : Nat) : ∀ c ∈ padded base zeros n, p c := by
  intro c hc
  rcases List.mem_append.1 hc with hc | hc
  · rw [List.eq_of_mem_replicate hc]
    exact hp 0 (by omega)
  · obtain ⟨d, hd, rfl⟩ := exists_of_mem_toDigits hbase hc
    exact hp d hd

/-! ## Where words and numbers end -/

/-- A text that starts with nothing that a word or a number could go on with. -/
def Breaks (rest : List Char) : Prop :=
  ∀ c ∈ rest.head?, isWordPart c = false

/-- The lower-case letters are those from `a` to `z`. -/
theorem isLower_iff {c : Char} : c.isLower ↔ 'a'.val ≤ c.val ∧ c.val ≤ 'z'.val := by
  change (decide ('a'.val ≤ c.val) && decide (c.val ≤ 'z'.val)) = true ↔ _
  rw [Bool.and_eq_true, decide_eq_true_eq, decide_eq_true_eq]

theorem isWordPart_of_isDigit {c : Char} (h : c.isDigit) : isWordPart c := by
  simp [isWordPart, h]

theorem isWordPart_of_isHexDigit {c : Char} (h : isHexDigit c) : isWordPart c := by
  rw [isHexDigit, Bool.or_eq_true, Bool.and_eq_true, decide_eq_true_eq, decide_eq_true_eq] at h
  rcases h with h | ⟨hfirst, hlast⟩
  · exact isWordPart_of_isDigit h
  · have hlower : c.isLower := isLower_iff.2 ⟨hfirst, UInt32.le_trans hlast (by decide)⟩
    simp [isWordPart, hlower]

theorem isWordPart_of_isBinaryDigit {c : Char} (h : isBinaryDigit c) : isWordPart c := by
  have hc : c = '0' ∨ c = '1' := by simpa [isBinaryDigit] using h
  rcases hc with rfl | rfl <;> decide

/-- Taking stops where a text breaks. -/
theorem takeWhile_append_of_breaks {p : Char → Bool} (hp : ∀ c, p c → isWordPart c)
    {w rest : List Char} (hw : ∀ c ∈ w, p c) (hr : Breaks rest) :
    (w ++ rest).takeWhile p = w := by
  rw [List.takeWhile_append_of_pos hw]
  cases rest with
  | nil => simp
  | cons c cs =>
    have hc : p c = false := Bool.eq_false_iff.2 fun h => by simpa [hp c h] using hr c rfl
    simp [hc]

theorem digits?_append {p : Char → Bool} (hp : ∀ c, p c → isWordPart c) {ds rest : List Char}
    (hne : ds ≠ []) (hd : ∀ c ∈ ds, p c) (hr : Breaks rest) : digits? p (ds ++ rest) = some ds := by
  rw [digits?, takeWhile_append_of_breaks hp hd hr]
  cases ds with
  | nil => exact absurd rfl hne
  | cons d ds => rfl

/-! ## Lexemes -/

section

variable {ds rest : List Char} (hne : ds ≠ []) (hr : Breaks rest)
include hne hr

/-- Digits that a text breaks behind start no numeral of another base. -/
theorem basedNumeral?_digits (hd : ∀ c ∈ ds, c.isDigit) : basedNumeral? (ds ++ rest) = none := by
  have second : ∀ c ∈ (ds.tail ++ rest).head?, c ≠ 'x' ∧ c ≠ 'b' := by
    intro c hc
    have hc' : c.isDigit ∨ isWordPart c = false := by
      rcases ds with _ | ⟨d, _ | ⟨d', ds⟩⟩
      · exact absurd rfl hne
      · exact .inr (hr c (by simpa using hc))
      · obtain rfl : d' = c := by simpa using hc
        exact .inl (hd d' (by simp))
    constructor <;> rintro rfl <;> revert hc' <;> decide
  unfold basedNumeral?
  split
  · rename_i r e
    rcases ds with _ | ⟨d, ds⟩
    · exact absurd rfl hne
    · simp only [List.cons_append, List.cons.injEq] at e
      exact absurd rfl (second 'x' (by simp [e.2])).1
  · rename_i r e
    rcases ds with _ | ⟨d, ds⟩
    · exact absurd rfl hne
    · simp only [List.cons_append, List.cons.injEq] at e
      exact absurd rfl (second 'b' (by simp [e.2])).2
  · rfl

theorem lexeme?_digits (hd : ∀ c ∈ ds, c.isDigit) :
    lexeme? (ds ++ rest) = some (.decimal false ds) := by
  rw [lexeme?, basedNumeral?_digits hne hr hd, decimalNumeral?]
  · rw [digits?_append (fun _ => isWordPart_of_isDigit) hne hd hr]
    rfl
  · rintro r e
    rcases ds with _ | ⟨d, ds⟩
    · exact absurd rfl hne
    · simp only [List.cons_append, List.cons.injEq] at e
      have := hd d (by simp)
      rw [e.1] at this
      exact absurd this (by decide)

theorem lexeme?_negative (hd : ∀ c ∈ ds, c.isDigit) :
    lexeme? ('-' :: ds ++ rest) = some (.decimal true ds) := by
  rw [lexeme?, List.cons_append, basedNumeral?, decimalNumeral?,
    digits?_append (fun _ => isWordPart_of_isDigit) hne hd hr]
  · rfl
  all_goals
    rintro r e
    exact absurd (List.cons.inj e).1 (by decide)

theorem lexeme?_hexadecimal (hd : ∀ c ∈ ds, isHexDigit c) :
    lexeme? ('0' :: 'x' :: ds ++ rest) = some (.hexadecimal ds) := by
  rw [lexeme?, List.cons_append, List.cons_append, basedNumeral?,
    digits?_append (fun _ => isWordPart_of_isHexDigit) hne hd hr]
  rfl

theorem lexeme?_binary (hd : ∀ c ∈ ds, isBinaryDigit c) :
    lexeme? ('0' :: 'b' :: ds ++ rest) = some (.binary ds) := by
  rw [lexeme?, List.cons_append, List.cons_append, basedNumeral?,
    digits?_append (fun _ => isWordPart_of_isBinaryDigit) hne hd hr]
  rfl

end

/-! ## Numbers -/

/-- The numerals of a number: decimal ones with or without a minus sign, hexadecimal ones and binary
ones, with leading zeros. -/
inductive Spells : List Char → Int → Prop
  | decimal (zeros n : Nat) : Spells (padded 10 zeros n) n
  | negative (zeros n : Nat) : Spells ('-' :: padded 10 zeros n) (-n)
  | hexadecimal (zeros n : Nat) : Spells ('0' :: 'x' :: padded 16 zeros n) n
  | binary (zeros n : Nat) : Spells ('0' :: 'b' :: padded 2 zeros n) n

/-- **A numeral is read as the number that it spells**, or it is too large. Then the digits at its
end are shown. -/
theorem lexeme?_of_spells {literal rest : List Char} {v : Int} (h : Spells literal v)
    (hr : Breaks rest) :
    ∃ x text, lexeme? (literal ++ rest) = some x ∧ x.chars = literal ∧ text <:+ literal ∧
      x.token = Lexeme.token.orOverflow (intToken? v) text := by
  have hdigits : ∀ zeros n : Nat, ∀ c ∈ padded 10 zeros n, c.isDigit :=
    forall_mem_padded (by decide) (by decide)
  cases h with
  | decimal zeros n =>
    refine ⟨_, _, lexeme?_digits (padded_ne_nil _ _ _) hr (hdigits zeros n), rfl,
      List.suffix_rfl, ?_⟩
    rw [Lexeme.token, numeral_padded (by decide)]
    rfl
  | negative zeros n =>
    refine ⟨_, _, lexeme?_negative (padded_ne_nil _ _ _) hr (hdigits zeros n), rfl,
      List.suffix_rfl, ?_⟩
    rw [Lexeme.token, numeral_padded (by decide)]
    rfl
  | hexadecimal zeros n =>
    refine ⟨_, padded 16 zeros n, lexeme?_hexadecimal (padded_ne_nil _ _ _) hr
      (forall_mem_padded (by decide) (by decide) zeros n), rfl, List.suffix_append ['0', 'x'] _, ?_⟩
    rw [Lexeme.token, numeral_padded (by decide)]
  | binary zeros n =>
    refine ⟨_, padded 2 zeros n, lexeme?_binary (padded_ne_nil _ _ _) hr
      (forall_mem_padded (by decide) (by decide) zeros n), rfl, List.suffix_append ['0', 'b'] _, ?_⟩
    rw [Lexeme.token, numeral_padded (by decide)]

end Eqasm
