import Eqasm.Token
import Eqasm.Text.Lowercase
import Eqasm.Text.Numeral

/-!
# The lexer

A program text is lowered and then cut into tokens. Blanks and comments separate tokens and belong
to none; a comment runs from `#` up to the end of its line. Each token is the longest numeral, word
or sign at its place, numerals of base 16 and 2 having precedence over decimal ones.

`lexeme?` finds what is written at a place and `Lexeme.token` what it means. A `Lexer` is a place
in a text: the byte where it is, with its line and the byte where that starts. `next` goes one token
on and `remaining` lists all that are left. The first place where nothing can be read ends the text
with an error.
-/

namespace Eqasm

/-- Why a text has no tokens. -/
inductive LexError where
  /-- No token starts with this character. -/
  | illegalCharacter (c : Char) (line column : Nat)
  /-- The number is too large. -/
  | integerOverflow (text : String) (line column : Nat)
  deriving DecidableEq, Repr

/-- The wording of a lexical error. -/
def LexError.message : LexError → String
  | illegalCharacter c line column => s!"line {line}, column {column}: illegal character '{c}'"
  | integerOverflow text line column =>
    s!"line {line}, column {column}: literal '{text}' does not fit in 64 bits"

/-! ## What is written -/

/-- The blanks and comments that a text starts with, inside a comment or not. -/
def blanks (inComment : Bool) : List Char → List Char
  | [] => []
  | c :: rest =>
    if c = '\n' then []
    else if inComment || c = '#' then c :: blanks true rest
    else if c = ' ' || c = '\t' || c = '\r' then c :: blanks false rest
    else []

/-- What is written at a place. -/
inductive Lexeme where
  | hexadecimal (digits : List Char)
  | binary (digits : List Char)
  | decimal (negative : Bool) (digits : List Char)
  | word (first : Char) (others : List Char)
  | sign (c : Char) (token : Token)
  deriving DecidableEq, Repr

/-- The characters of a lexeme. -/
def Lexeme.chars : Lexeme → List Char
  | hexadecimal digits => '0' :: 'x' :: digits
  | binary digits => '0' :: 'b' :: digits
  | decimal negative digits => if negative then '-' :: digits else digits
  | word first others => first :: others
  | sign c _ => [c]

/-- Whether a word can start with a character. -/
def isWordStart (c : Char) : Bool :=
  c.isLower || c = '_'

/-- Whether a word can go on with a character. -/
def isWordPart (c : Char) : Bool :=
  c.isLower || c.isDigit || c = '_' || c = '.'

/-- The token of a sign. -/
def signToken? : Char → Option Token
  | '(' => some .lparen
  | ')' => some .rparen
  | '{' => some .lbrace
  | '}' => some .rbrace
  | ',' => some .comma
  | ':' => some .colon
  | '|' => some .bar
  | '\n' => some .newline
  | _ => none

/-- The digits that a text starts with, if any. -/
def digits? (isDigit : Char → Bool) (text : List Char) : Option (List Char) :=
  match text.takeWhile isDigit with
  | [] => none
  | digits => some digits

/-- A numeral of base 16 or 2. -/
def basedNumeral? : List Char → Option Lexeme
  | '0' :: 'x' :: rest => (digits? isHexDigit rest).map .hexadecimal
  | '0' :: 'b' :: rest => (digits? isBinaryDigit rest).map .binary
  | _ => none

/-- A decimal numeral. -/
def decimalNumeral? : List Char → Option Lexeme
  | '-' :: rest => (digits? Char.isDigit rest).map (.decimal true)
  | text => (digits? Char.isDigit text).map (.decimal false)

/-- A word or a sign. -/
def wordOrSign? : List Char → Option Lexeme
  | [] => none
  | c :: rest =>
    if isWordStart c then some (.word c (rest.takeWhile isWordPart))
    else (signToken? c).map (.sign c)

/-- What is written at the start of a text. -/
def lexeme? (text : List Char) : Option Lexeme :=
  ((basedNumeral? text).or (decimalNumeral? text)).or (wordOrSign? text)

/-! ## What it means -/

/-- The token of a number, if 64 bits can hold it. -/
def intToken? (v : Int) : Option Token :=
  if -0x8000000000000000 ≤ v ∧ v ≤ 0x7FFFFFFFFFFFFFFF then some (.int v) else none

/-- The register that a word names by its letter and number, with the digits of the number. -/
def registerParts? (first : Char) (others : List Char) : Option (RegisterClass × List Char) :=
  if others ≠ [] ∧ others.all Char.isDigit then
    (RegisterClass.ofSigil? first).map (·, others)
  else
    none

/-- The token of a word that names no register. -/
def nameToken (word : String) : Token :=
  match Keyword.ofWord? word with
  | some k => .keyword k
  | none =>
    match Flag.ofName? word with
    | some f => .flag f
    | none => .ident word

/-- The token of a lexeme, or the text of a number that is too large. -/
def Lexeme.token (l : Lexeme) : Except String Token :=
  match l with
  | hexadecimal digits => orOverflow (intToken? (numeral 16 digits)) digits
  | binary digits => orOverflow (intToken? (numeral 2 digits)) digits
  | decimal negative digits =>
    let n : Int := numeral 10 digits
    orOverflow (intToken? (if negative then -n else n)) l.chars
  | word first others =>
    match registerParts? first others with
    | some (c, digits) =>
      let i := numeral 10 digits
      orOverflow (if i ≤ 0xFFFFFFFFFFFFFFFF then some (.register c i) else none) l.chars
    | none => .ok (nameToken (String.ofList l.chars))
  | sign _ token => .ok token
where
  /-- A token that exists, or the text of the number. -/
  orOverflow (token : Option Token) (text : List Char) : Except String Token :=
    match token with
    | some t => .ok t
    | none => .error (String.ofList text)

/-! ## Bytes -/

/-- The length of a text in bytes. -/
def byteLength : List Char → Nat
  | [] => 0
  | c :: rest => c.utf8Size + byteLength rest

/-- A text from a byte on, without the rest of a character that the byte is inside of. -/
def dropBytes : Nat → List Char → List Char
  | 0, text => text
  | _ + 1, [] => []
  | n + 1, c :: text => dropBytes (n + 1 - c.utf8Size) text

theorem byteLength_pos {s : List Char} (h : s ≠ []) : 0 < byteLength s := by
  cases s with
  | nil => exact absurd rfl h
  | cons c s => exact Nat.add_pos_left c.utf8Size_pos _

theorem byteLength_drop_le (n : Nat) (s : List Char) : byteLength (s.drop n) ≤ byteLength s := by
  induction s generalizing n with
  | nil => simp
  | cons c s ih =>
    cases n with
    | zero => exact Nat.le_refl _
    | succ n => exact Nat.le_trans (ih n) (Nat.le_add_left ..)

theorem byteLength_dropBytes_le (n : Nat) (s : List Char) :
    byteLength (dropBytes n s) ≤ byteLength s - n := by
  fun_induction dropBytes with
  | case1 => exact Nat.le_refl _
  | case2 => exact Nat.zero_le _
  | case3 n c s ih =>
    rw [byteLength]
    omega

/-! ## Places in a text -/

/-- A place in a lowered text. -/
structure Lexer where
  source : List Char
  /-- The byte where the place is. -/
  pos : Nat
  line : Nat
  /-- The byte where the line starts. -/
  lineStart : Nat
  finished : Bool
  deriving DecidableEq, Repr

namespace Lexer

/-- The start of a text that is lowered already. -/
def start (source : List Char) : Lexer :=
  ⟨source, 0, 1, 0, false⟩

/-- The start of a text in any letter case. -/
def ofString (source : String) : Lexer :=
  start (Text.lower source.toList)

/-- The start of the same text. -/
def restart (l : Lexer) : Lexer :=
  start l.source

/-- The text from the place on. -/
def rest (l : Lexer) : List Char :=
  dropBytes l.pos l.source

/-- The text behind the blanks and comments at the place. -/
def ahead (l : Lexer) : List Char :=
  l.rest.drop (blanks false l.rest).length

/-- The byte where an end of the text starts. -/
def offset (l : Lexer) (rest : List Char) : Nat :=
  byteLength l.source - byteLength rest

/-- The column where an end of the text starts, in the line of the place. -/
def column (l : Lexer) (rest : List Char) : Nat :=
  l.offset rest - l.lineStart + 1

/-- The place behind a token that ends in front of a byte. -/
def pass (l : Lexer) (t : Token) (pos : Nat) : Lexer :=
  if t = .newline then { l with pos, line := l.line + 1, lineStart := pos } else { l with pos }

/-- The next token or error, if there is one, and the place behind it. -/
def next (l : Lexer) : Option (Except LexError Located) × Lexer :=
  if l.finished then (none, l) else
  match l.ahead with
  | [] => (none, { l with pos := l.offset [], finished := true })
  | c :: behind =>
    let column := l.column (c :: behind)
    match lexeme? (c :: behind) with
    | none => (some (.error (.illegalCharacter c l.line column)), { l with finished := true })
    | some lexeme =>
      match lexeme.token with
      | .error text =>
        (some (.error (.integerOverflow text l.line column)), { l with finished := true })
      | .ok token =>
        (some (.ok ⟨token, l.line, column⟩),
          l.pass token (l.offset (c :: behind) + byteLength lexeme.chars))

/-- A bound on the number of items left. -/
def weight (l : Lexer) : Nat :=
  if l.finished then 0 else byteLength l.source - l.pos + 1

theorem ne_nil_of_digits? {p : Char → Bool} {text digits : List Char}
    (h : digits? p text = some digits) : digits ≠ [] := by
  unfold digits? at h
  split at h
  · cases h
  · rename_i hne
    cases h
    exact hne

/-- A lexeme is not empty. -/
theorem chars_ne_nil_of_lexeme? {text : List Char} {l : Lexeme} (h : lexeme? text = some l) :
    l.chars ≠ [] := by
  simp only [lexeme?, Option.or_eq_some_iff] at h
  rcases h with (h | ⟨-, h⟩) | ⟨-, h⟩
  · unfold basedNumeral? at h
    split at h <;> simp at h <;> obtain ⟨d, -, rfl⟩ := h <;> simp [Lexeme.chars]
  · unfold decimalNumeral? at h
    split at h <;> simp at h <;> obtain ⟨d, hd, rfl⟩ := h <;>
      simp [Lexeme.chars, ne_nil_of_digits? hd]
  · unfold wordOrSign? at h
    split at h
    · simp at h
    · split at h
      · simp at h; subst h; simp [Lexeme.chars]
      · simp at h; obtain ⟨t, -, rfl⟩ := h; simp [Lexeme.chars]

/-- Every item brings the end nearer. -/
theorem weight_lt_of_next {l l' : Lexer} {r : Except LexError Located}
    (h : l.next = (some r, l')) : l'.weight < l.weight := by
  unfold next at h
  split at h
  · cases h
  rename_i hf
  split at h
  · cases h
  rename_i c behind hahead
  simp only at h
  split at h
  · cases h
    simp [weight, hf]
  rename_i x hx
  split at h
  · cases h
    simp [weight, hf]
  · cases h
    have hchars : 0 < byteLength x.chars := byteLength_pos (chars_ne_nil_of_lexeme? hx)
    have hleft : byteLength (c :: behind) ≤ byteLength l.source - l.pos :=
      hahead ▸ Nat.le_trans (byteLength_drop_le ..) (byteLength_dropBytes_le ..)
    have hpos : 0 < byteLength (c :: behind) := byteLength_pos (List.cons_ne_nil c behind)
    unfold pass
    split <;> simp [weight, hf, offset] <;> omega

/-- All tokens that are left, and the error behind them if there is one. -/
def remaining (l : Lexer) : List (Except LexError Located) :=
  match _h : l.next with
  | (none, _) => []
  | (some r, l') => r :: remaining l'
termination_by l.weight
decreasing_by exact weight_lt_of_next _h

/-- The place where the text ends or cannot be read further. -/
def ending (l : Lexer) : Lexer :=
  match _h : l.next with
  | (none, l') => l'
  | (some _, l') => ending l'
termination_by l.weight
decreasing_by exact weight_lt_of_next _h

end Lexer

/-- The tokens of a text in any letter case. -/
def tokenize (source : String) : Except LexError (List Located) :=
  (Lexer.ofString source).remaining.mapM id

end Eqasm
