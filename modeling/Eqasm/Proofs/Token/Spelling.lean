import Eqasm.Proofs.Instruction.WellFormed
import Eqasm.Proofs.Token.Numeral

/-!
# Spelled tokens

How tokens are spelled in lower case, and that the lexer reads them from their spelling
(`lexeme?_spelling`). What stands behind a word or a number must not go on with it (`Breaks`).
-/

namespace Eqasm

/-! ## Words and signs -/

/-- A character that starts a word starts no number. -/
theorem ne_of_isWordStart {c d : Char} (hc : isWordStart c) (hd : isWordStart d = false) :
    c ≠ d := by
  rintro rfl
  simp [hc] at hd

theorem lexeme?_word {c : Char} {others rest : List Char} (hc : isWordStart c)
    (ho : ∀ d ∈ others, isWordPart d) (hr : Breaks rest) :
    lexeme? (c :: others ++ rest) = some (.word c others) := by
  have hdigit : c.isDigit = false := by
    simp only [isWordStart, isLower_iff, Char.isDigit, Bool.or_eq_true, decide_eq_true_eq,
      Bool.and_eq_false_iff, decide_eq_false_iff_not] at hc ⊢
    rcases hc with hc | rfl
    · exact .inr fun h => absurd (UInt32.le_trans hc.1 h) (by decide)
    · exact .inr (by decide)
  have hbased : basedNumeral? (c :: others ++ rest) = none := by
    rw [List.cons_append, basedNumeral?]
    all_goals
      rintro r e
      exact ne_of_isWordStart hc (by decide) (List.cons.inj e).1
  have hdecimal : decimalNumeral? (c :: others ++ rest) = none := by
    rw [List.cons_append, decimalNumeral?, digits?, List.takeWhile_cons_of_neg (by simp [hdigit])]
    · rfl
    · rintro r e
      exact ne_of_isWordStart hc (by decide) (List.cons.inj e).1
  rw [lexeme?, hbased, hdecimal, List.cons_append, wordOrSign?, if_pos hc,
    takeWhile_append_of_breaks (fun _ h => h) ho hr]
  rfl

theorem lexeme?_sign {c : Char} {t : Token} (h : signToken? c = some t) (rest : List Char) :
    lexeme? (c :: rest) = some (.sign c t) := by
  unfold signToken? at h
  split at h <;> cases h <;> rfl

/-! ## Tokens -/

namespace Token

/-- A token that the lexer can give. Numbers have 64 bits. -/
def Valid : Token → Prop
  | int value => -0x8000000000000000 ≤ value ∧ value ≤ 0x7FFFFFFFFFFFFFFF
  | register _ index => IsIndex index
  | ident name => IsName name
  | _ => True

@[simp] theorem valid_register {c : RegisterClass} {i : Nat} :
    (register c i).Valid ↔ IsIndex i := Iff.rfl

@[simp] theorem valid_ident {name : String} : (ident name).Valid ↔ IsName name := Iff.rfl

@[simp] theorem valid_keyword (k : Keyword) : (keyword k).Valid := trivial

@[simp] theorem valid_flag (f : Flag) : (flag f).Valid := trivial

@[simp] theorem valid_signs : lparen.Valid ∧ rparen.Valid ∧ lbrace.Valid ∧ rbrace.Valid ∧
    comma.Valid ∧ colon.Valid ∧ bar.Valid ∧ newline.Valid := by
  simp [Valid]

/-- Whether a token is a single sign. -/
def isSign : Token → Bool
  | lparen | rparen | lbrace | rbrace | comma | colon | bar | newline => true
  | _ => false

/-- How a token is written in lower case. -/
def spelling : Token → List Char
  | int value =>
    if value < 0 then '-' :: Nat.toDigits 10 value.natAbs else Nat.toDigits 10 value.natAbs
  | register c index => c.sigil :: Nat.toDigits 10 index
  | keyword k => k.spelling.toList
  | flag f => f.name.toList
  | ident name => name.toList
  | lparen => ['(']
  | rparen => [')']
  | lbrace => ['\x7b']
  | rbrace => ['\x7d']
  | comma => [',']
  | colon => [':']
  | bar => ['|']
  | newline => ['\n']

@[simp] theorem spelling_natCast (n : Nat) : (int n).spelling = Nat.toDigits 10 n := by
  simp [spelling]

@[simp] theorem spelling_register (c : RegisterClass) (i : Nat) :
    (register c i).spelling = c.sigil :: Nat.toDigits 10 i := rfl

@[simp] theorem spelling_keyword (k : Keyword) : (keyword k).spelling = k.spelling.toList := rfl

@[simp] theorem spelling_flag (f : Flag) : (flag f).spelling = f.name.toList := rfl

@[simp] theorem spelling_ident (name : String) : (ident name).spelling = name.toList := rfl

@[simp] theorem spelling_lparen : lparen.spelling = ['('] := rfl

@[simp] theorem spelling_rparen : rparen.spelling = [')'] := rfl

@[simp] theorem spelling_lbrace : lbrace.spelling = ['\x7b'] := rfl

@[simp] theorem spelling_rbrace : rbrace.spelling = ['\x7d'] := rfl

@[simp] theorem spelling_comma : comma.spelling = [','] := rfl

@[simp] theorem spelling_colon : colon.spelling = [':'] := rfl

@[simp] theorem spelling_bar : bar.spelling = ['|'] := rfl

@[simp] theorem spelling_newline : newline.spelling = ['\n'] := rfl

end Token

theorem RegisterClass.ofSigil?_eq_none {c : Char} (h : c ∉ ['r', 's', 't', 'q', 'f']) :
    RegisterClass.ofSigil? c = none := by
  unfold RegisterClass.ofSigil?
  split <;> first | rfl | exact absurd (by simp) h

/-- The token of a word that names no register. -/
theorem token_word {c : Char} {others : List Char} (h : ¬ IsRegisterWord (c :: others)) :
    (Lexeme.word c others).token = .ok (nameToken (String.ofList (c :: others))) := by
  have hr : registerParts? c others = none := by
    unfold registerParts?
    split
    · rename_i hd
      rw [RegisterClass.ofSigil?_eq_none fun hc => h ⟨hc, hd.1, by simpa using hd.2⟩]
      rfl
    · rfl
  simp [Lexeme.token, hr, Lexeme.chars]

/-- Every word that is no register is read as what it names. -/
theorem lexeme?_name {text rest : List Char} (hw : IsWord text) (hn : ¬ IsRegisterWord text)
    (hr : Breaks rest) :
    ∃ x, lexeme? (text ++ rest) = some x ∧ x.chars = text ∧
      x.token = .ok (nameToken (String.ofList text)) := by
  rcases text with _ | ⟨c, others⟩
  · exact hw.elim
  obtain ⟨hc, ho⟩ := hw
  refine ⟨.word c others, lexeme?_word ?_ ?_ hr, rfl, token_word hn⟩
  · simpa [isWordStart] using hc
  · simpa [isWordPart, or_assoc] using ho

theorem Keyword.spelling_spec (k : Keyword) : IsWord k.spelling.toList ∧
    ¬ IsRegisterWord k.spelling.toList ∧ Keyword.ofWord? k.spelling = some k := by
  have all : ∀ k ∈ Keyword.all, IsWord k.spelling.toList ∧ ¬ IsRegisterWord k.spelling.toList ∧
      Keyword.ofWord? k.spelling = some k := by
    decide +kernel
  exact all k k.mem_all

theorem Flag.name_spec (f : Flag) : IsWord f.name.toList ∧ ¬ IsRegisterWord f.name.toList ∧
    Keyword.ofWord? f.name = none ∧ Flag.ofName? f.name = some f := by
  have all : ∀ f ∈ Flag.all, IsWord f.name.toList ∧ ¬ IsRegisterWord f.name.toList ∧
      Keyword.ofWord? f.name = none ∧ Flag.ofName? f.name = some f := by
    decide +kernel
  exact all f f.mem_all

theorem nameToken_keyword (k : Keyword) : nameToken k.spelling = .keyword k := by
  simp [nameToken, k.spelling_spec.2.2]

theorem nameToken_flag (f : Flag) : nameToken f.name = .flag f := by
  simp [nameToken, f.name_spec.2.2]

theorem nameToken_ident {name : String} (h : IsName name) : nameToken name = .ident name := by
  have hk : Keyword.ofWord? name = none := by
    rw [Keyword.ofWord?, List.find?_eq_none]
    exact fun k _ => by simpa using h.not_keyword k
  have hf : Flag.ofName? name = none := by
    rw [Flag.ofName?, List.find?_eq_none]
    exact fun f _ => by simpa using h.not_flag f
  simp [nameToken, hk, hf]

theorem intToken?_of_valid {v : Int} (h : (Token.int v).Valid) : intToken? v = some (.int v) :=
  if_pos h

/-- The word of a register is read as the register. -/
theorem lexeme?_register (c : RegisterClass) {i : Nat} (hi : IsIndex i) {rest : List Char}
    (hr : Breaks rest) :
    ∃ x, lexeme? ((Token.register c i).spelling ++ rest) = some x ∧
      x.chars = (Token.register c i).spelling ∧ x.token = .ok (.register c i) := by
  have hd : ∀ d ∈ Nat.toDigits 10 i, d.isDigit :=
    fun d => Nat.isDigit_of_mem_toDigits (by decide) (by decide)
  refine ⟨.word c.sigil (Nat.toDigits 10 i), lexeme?_word ?_ ?_ hr, rfl, ?_⟩
  · cases c <;> decide
  · exact fun d h => isWordPart_of_isDigit (hd d h)
  · have hs : RegisterClass.ofSigil? c.sigil = some c := by cases c <;> rfl
    have hp : registerParts? c.sigil (Nat.toDigits 10 i) = some (c, Nat.toDigits 10 i) := by
      rw [registerParts?, if_pos ⟨Nat.toDigits_ne_nil, by simpa using hd⟩, hs]
      rfl
    have hnumeral : numeral 10 (Nat.toDigits 10 i) = i := numeral_toDigits (by decide) i
    simp only [Lexeme.token, hp, hnumeral, if_pos (show i ≤ 0xFFFFFFFFFFFFFFFF from hi)]
    rfl

/-- An integer is spelled with its digits. -/
theorem spells_int (v : Int) : Spells (Token.int v).spelling v := by
  rw [Token.spelling]
  split
  · have hspells := Spells.negative 0 v.natAbs
    rwa [show -(v.natAbs : Int) = v by omega] at hspells
  · have hspells := Spells.decimal 0 v.natAbs
    rwa [show (v.natAbs : Int) = v by omega] at hspells

/-- The digits of an integer are read as the integer. -/
theorem lexeme?_int {v : Int} (hv : (Token.int v).Valid) {rest : List Char} (hr : Breaks rest) :
    ∃ x, lexeme? ((Token.int v).spelling ++ rest) = some x ∧
      x.chars = (Token.int v).spelling ∧ x.token = .ok (.int v) := by
  obtain ⟨x, text, hx, hchars, -, htoken⟩ := lexeme?_of_spells (spells_int v) hr
  rw [intToken?_of_valid hv] at htoken
  exact ⟨x, hx, hchars, htoken⟩

/-- **A spelled token is read as this token**, whatever stands behind a sign, and behind a word or
a number if nothing goes on with it. -/
theorem lexeme?_spelling {t : Token} (ht : t.Valid) {rest : List Char}
    (hr : t.isSign = false → Breaks rest) :
    ∃ x, lexeme? (t.spelling ++ rest) = some x ∧ x.chars = t.spelling ∧ x.token = .ok t := by
  cases t with
  | int v => exact lexeme?_int ht (hr rfl)
  | register c i => exact lexeme?_register c ht (hr rfl)
  | keyword k =>
    obtain ⟨hw, hn, -⟩ := k.spelling_spec
    simpa [Token.spelling, nameToken_keyword] using lexeme?_name hw hn (hr rfl)
  | flag f =>
    obtain ⟨hw, hn, -⟩ := f.name_spec
    simpa [Token.spelling, nameToken_flag] using lexeme?_name hw hn (hr rfl)
  | ident name =>
    simpa [Token.spelling, nameToken_ident ht] using
      lexeme?_name ht.isWord ht.not_register (hr rfl)
  | lparen | rparen | lbrace | rbrace | comma | colon | bar | newline =>
    exact ⟨_, lexeme?_sign rfl rest, rfl, rfl⟩

end Eqasm
