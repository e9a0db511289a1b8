import Eqasm.Proofs.Token.Row

/-!
# Tokens of lexemes

Whatever the text, a lexeme means a valid token (`valid_of_lexeme?`): a number in its range, or a
name that is a word and means nothing else.
-/

namespace Eqasm

/-! ## Words -/

theorem isWord_iff {c : Char} {others : List Char} :
    IsWord (c :: others) ↔ isWordStart c ∧ ∀ d ∈ others, isWordPart d := by
  simp [IsWord, isWordStart, isWordPart, or_assoc]

/-- A lexeme that is a word starts as words do and goes on as words do. -/
theorem isWord_of_lexeme? {text : List Char} {c : Char} {others : List Char}
    (h : lexeme? text = some (.word c others)) : IsWord (c :: others) := by
  rw [lexeme?, Option.or_eq_some_iff, Option.or_eq_some_iff] at h
  rcases h with (h | ⟨-, h⟩) | ⟨-, h⟩
  · unfold basedNumeral? at h
    split at h <;> simp at h
  · unfold decimalNumeral? at h
    split at h <;> simp at h
  · cases text with
    | nil => cases h
    | cons d rest =>
      rw [wordOrSign?] at h
      split at h
      · rename_i hd
        obtain ⟨rfl, rfl⟩ : d = c ∧ rest.takeWhile isWordPart = others := by simpa using h
        exact isWord_iff.2 ⟨hd, fun e he => List.all_eq_true.1 List.all_takeWhile e he⟩
      · simp at h

/-- A lexeme that is a sign has the token of its character. -/
theorem signToken?_of_lexeme? {text : List Char} {c : Char} {t : Token}
    (h : lexeme? text = some (.sign c t)) : signToken? c = some t := by
  rw [lexeme?, Option.or_eq_some_iff, Option.or_eq_some_iff] at h
  rcases h with (h | ⟨-, h⟩) | ⟨-, h⟩
  · unfold basedNumeral? at h
    split at h <;> simp at h
  · unfold decimalNumeral? at h
    split at h <;> simp at h
  · cases text with
    | nil => cases h
    | cons d rest =>
      rw [wordOrSign?] at h
      split at h
      · simp at h
      · obtain ⟨t', ht, h⟩ := Option.map_eq_some_iff.1 h
        cases h
        exact ht

/-- A word that is no register is no register by its letters. -/
theorem not_isRegisterWord {c : Char} {others : List Char} (h : registerParts? c others = none) :
    ¬ IsRegisterWord (c :: others) := by
  rintro ⟨hc, hne, hd⟩
  rw [registerParts?, if_pos ⟨hne, List.all_eq_true.2 hd⟩, Option.map_eq_none_iff] at h
  have hsome : ∀ c ∈ ['r', 's', 't', 'q', 'f'], RegisterClass.ofSigil? c ≠ none := by
    simp [RegisterClass.ofSigil?]
  exact hsome c hc h

/-- A word that is no register, no keyword and no flag is a name. -/
theorem valid_nameToken {word : String} (hw : IsWord word.toList)
    (hr : ¬ IsRegisterWord word.toList) : (nameToken word).Valid := by
  unfold nameToken
  split
  · exact trivial
  · rename_i hk
    split
    · exact trivial
    · rename_i hf
      rw [Keyword.ofWord?, List.find?_eq_none] at hk
      rw [Flag.ofName?, List.find?_eq_none] at hf
      exact isName_iff.2 ⟨hw, hr, fun k hm => by simpa using hk k hm,
        fun f hm => by simpa using hf f hm⟩

/-! ## Texts -/

theorem valid_of_orOverflow {t : Token} {token : Option Token} {text : List Char}
    (h : Lexeme.token.orOverflow token text = .ok t) : token = some t := by
  unfold Lexeme.token.orOverflow at h
  split at h <;> simp_all

theorem valid_of_intToken? {v : Int} {t : Token} (h : intToken? v = some t) : t.Valid := by
  rw [intToken?] at h
  split at h
  · cases h
    assumption
  · cases h

/-- What is written at a place of any text means a valid token. -/
theorem valid_of_lexeme? {text : List Char} {x : Lexeme} {t : Token} (hx : lexeme? text = some x)
    (ht : x.token = .ok t) : t.Valid := by
  cases x with
  | hexadecimal digits | binary digits | decimal negative digits =>
    exact valid_of_intToken? (valid_of_orOverflow ht)
  | word c others =>
    rw [Lexeme.token] at ht
    cases hp : registerParts? c others with
    | some p =>
      obtain ⟨k, digits⟩ := p
      rw [hp] at ht
      have hsome := valid_of_orOverflow ht
      split at hsome
      · cases hsome
        assumption
      · cases hsome
    | none =>
      rw [hp] at ht
      cases ht
      exact valid_nameToken (by simpa [Lexeme.chars] using isWord_of_lexeme? hx)
        (by simpa [Lexeme.chars] using not_isRegisterWord hp)
  | sign c token =>
    cases ht
    have hs := signToken?_of_lexeme? hx
    unfold signToken? at hs
    split at hs <;> cases hs <;> trivial

end Eqasm
