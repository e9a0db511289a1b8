import Eqasm.Proofs.Token.Validity

/-!
# What lexemes are made of

A lexeme is what the text starts with (`prefix_of_lexeme?`), and no line end is part of a lexeme but
of the sign of a line end (`eq_sign_of_lexeme?`). A lexeme is decided by its own characters and by
what goes on behind them: if something is inserted behind it that no word or number goes on with, it
stays the same (`lexeme?_insert`).
-/

namespace Eqasm

/-! ## Characters -/

theorem digits?_eq_some {p : Char → Bool} {text ds : List Char} :
    digits? p text = some ds ↔ text.takeWhile p = ds ∧ ds ≠ [] := by
  unfold digits?
  split <;> rename_i h
  · simp [h, eq_comm]
  · rw [Option.some.injEq]
    exact ⟨fun e => ⟨e, e ▸ h⟩, fun e => e.1⟩

theorem prefix_of_digits? {p : Char → Bool} {text ds : List Char} (h : digits? p text = some ds) :
    ds <+: text ∧ ∀ c ∈ ds, p c := by
  obtain ⟨rfl, -⟩ := digits?_eq_some.1 h
  exact ⟨List.takeWhile_prefix p, List.all_eq_true.1 List.all_takeWhile⟩

theorem isWordPart_of_isWordStart {c : Char} (h : isWordStart c) : isWordPart c := by
  have hc : c.isLower ∨ c = '_' := by simpa [isWordStart] using h
  rcases hc with hc | rfl
  · simp [isWordPart, hc]
  · decide

/-! ## Beginnings -/

theorem prefix_of_basedNumeral? {text : List Char} {x : Lexeme} (h : basedNumeral? text = some x) :
    x.chars <+: text ∧ ∀ c ∈ x.chars, isWordPart c := by
  unfold basedNumeral? at h
  split at h
  · obtain ⟨ds, hds, rfl⟩ := Option.map_eq_some_iff.1 h
    obtain ⟨hpre, hall⟩ := prefix_of_digits? hds
    refine ⟨List.cons_prefix_cons.2 ⟨rfl, List.cons_prefix_cons.2 ⟨rfl, hpre⟩⟩, ?_⟩
    simp only [Lexeme.chars, List.forall_mem_cons]
    exact ⟨by decide, by decide, fun c hc => isWordPart_of_isHexDigit (hall c hc)⟩
  · obtain ⟨ds, hds, rfl⟩ := Option.map_eq_some_iff.1 h
    obtain ⟨hpre, hall⟩ := prefix_of_digits? hds
    refine ⟨List.cons_prefix_cons.2 ⟨rfl, List.cons_prefix_cons.2 ⟨rfl, hpre⟩⟩, ?_⟩
    simp only [Lexeme.chars, List.forall_mem_cons]
    exact ⟨by decide, by decide, fun c hc => isWordPart_of_isBinaryDigit (hall c hc)⟩
  · cases h

theorem prefix_of_decimalNumeral? {text : List Char} {x : Lexeme}
    (h : decimalNumeral? text = some x) :
    x.chars <+: text ∧ ∀ c ∈ x.chars, c = '-' ∨ isWordPart c := by
  unfold decimalNumeral? at h
  split at h
  · obtain ⟨ds, hds, rfl⟩ := Option.map_eq_some_iff.1 h
    obtain ⟨hpre, hall⟩ := prefix_of_digits? hds
    refine ⟨List.cons_prefix_cons.2 ⟨rfl, hpre⟩, ?_⟩
    simp only [Lexeme.chars, if_true, List.forall_mem_cons]
    exact ⟨.inl trivial, fun c hc => .inr (isWordPart_of_isDigit (hall c hc))⟩
  · obtain ⟨ds, hds, rfl⟩ := Option.map_eq_some_iff.1 h
    obtain ⟨hpre, hall⟩ := prefix_of_digits? hds
    exact ⟨hpre, fun c hc => .inr (isWordPart_of_isDigit (hall c hc))⟩

theorem prefix_of_wordOrSign? {text : List Char} {x : Lexeme} (h : wordOrSign? text = some x) :
    x.chars <+: text ∧
      ((∀ c ∈ x.chars, isWordPart c) ∨ ∃ c t, signToken? c = some t ∧ x = .sign c t) := by
  cases text with
  | nil => cases h
  | cons c rest =>
    rw [wordOrSign?] at h
    split at h
    · rename_i hc
      cases h
      refine ⟨List.cons_prefix_cons.2 ⟨rfl, List.takeWhile_prefix _⟩, .inl ?_⟩
      exact List.forall_mem_cons.2 ⟨isWordPart_of_isWordStart hc,
        List.all_eq_true.1 List.all_takeWhile⟩
    · obtain ⟨t, ht, rfl⟩ := Option.map_eq_some_iff.1 h
      exact ⟨List.cons_prefix_cons.2 ⟨rfl, List.nil_prefix⟩, .inr ⟨c, t, ht, rfl⟩⟩

/-- What is written at a place is what the text goes on with there: a sign, or a word or a
number. -/
theorem written_of_lexeme? {text : List Char} {x : Lexeme} (h : lexeme? text = some x) :
    x.chars <+: text ∧
      ((∀ c ∈ x.chars, c = '-' ∨ isWordPart c) ∨ ∃ c t, signToken? c = some t ∧ x = .sign c t) := by
  rw [lexeme?, Option.or_eq_some_iff, Option.or_eq_some_iff] at h
  rcases h with (h | ⟨-, h⟩) | ⟨-, h⟩
  · obtain ⟨hpre, hall⟩ := prefix_of_basedNumeral? h
    exact ⟨hpre, .inl fun c hc => .inr (hall c hc)⟩
  · obtain ⟨hpre, hall⟩ := prefix_of_decimalNumeral? h
    exact ⟨hpre, .inl hall⟩
  · obtain ⟨hpre, hall | hsign⟩ := prefix_of_wordOrSign? h
    · exact ⟨hpre, .inl fun c hc => .inr (hall c hc)⟩
    · exact ⟨hpre, .inr hsign⟩

/-- A text goes on with what is written there. -/
theorem exists_rest_of_lexeme? {text : List Char} {x : Lexeme} (h : lexeme? text = some x) :
    ∃ rest, text = x.chars ++ rest :=
  (written_of_lexeme? h).1.imp fun _ => Eq.symm

/-- The end of a line is a lexeme of its own. -/
theorem eq_sign_of_lexeme? {text : List Char} {x : Lexeme} (h : lexeme? text = some x)
    (hx : '\n' ∈ x.chars) : x = .sign '\n' .newline := by
  rcases (written_of_lexeme? h).2 with hall | ⟨c, t, ht, rfl⟩
  · exact absurd (hall _ hx) (by decide)
  · obtain rfl : '\n' = c := List.mem_singleton.1 hx
    cases ht
    rfl

theorem newline_notMem_of_token {text : List Char} {x : Lexeme} {t : Token}
    (h : lexeme? text = some x) (hx : x.token = .ok t) (ht : t ≠ .newline) : '\n' ∉ x.chars := by
  intro hmem
  rw [eq_sign_of_lexeme? h hmem] at hx
  exact ht (Except.ok.inj hx).symm

theorem eq_int_of_intToken? {v : Int} {t : Token} (h : intToken? v = some t) : t = .int v := by
  rw [intToken?] at h
  split at h
  · exact (Option.some.inj h).symm
  · cases h

/-- Only the end of a line means one. -/
theorem chars_of_newline {text : List Char} {x : Lexeme} (h : lexeme? text = some x)
    (hx : x.token = .ok .newline) : x.chars = ['\n'] := by
  cases x with
  | hexadecimal digits | binary digits | decimal negative digits =>
    cases eq_int_of_intToken? (valid_of_orOverflow hx)
  | word first others =>
    rw [Lexeme.token] at hx
    split at hx
    · have hregister := valid_of_orOverflow hx
      split at hregister <;> cases hregister
    · have hname : nameToken (String.ofList (Lexeme.chars (.word first others))) ≠ .newline := by
        unfold nameToken
        split
        · simp
        · split <;> simp
      exact absurd (Except.ok.inj hx) hname
  | sign c token =>
    cases hx
    have hc := signToken?_of_lexeme? h
    unfold signToken? at hc
    split at hc <;> cases hc
    rfl

/-! ## Insertions -/

/-- A character that separates lexemes: a blank, or the start of a comment. -/
def IsSeparator (c : Char) : Prop :=
  c = ' ' ∨ c = '\t' ∨ c = '\r' ∨ c = '#'

/-- No lexeme starts with a separator. -/
theorem lexeme?_separator {c : Char} (h : IsSeparator c) (rest : List Char) :
    lexeme? (c :: rest) = none := by
  rcases h with rfl | rfl | rfl | rfl <;> rfl

/-- No lexeme goes on with a separator. -/
theorem IsSeparator.isWordPart {c : Char} (hc : IsSeparator c) : isWordPart c = false := by
  rcases hc with rfl | rfl | rfl | rfl <;> decide

section

variable {c : Char} (hc : isWordPart c = false) (w b : List Char)
include hc

/-- Taking characters does not reach an insertion behind those that are taken. -/
theorem takeWhile_insert {p : Char → Bool} (hp : ∀ c, p c → isWordPart c) {a : List Char}
    (h : ((a ++ b).takeWhile p).length ≤ a.length) :
    (a ++ (c :: w ++ b)).takeWhile p = (a ++ b).takeWhile p := by
  have hpc : p c = false := Bool.eq_false_iff.2 fun e => by simpa [hc] using hp c e
  induction a with
  | nil =>
    have hnil : (b.takeWhile p) = [] := List.length_eq_zero_iff.1 (Nat.le_zero.1 h)
    simp only [List.nil_append, List.cons_append, hnil]
    exact List.takeWhile_cons_of_neg (by simp [hpc])
  | cons d a ih =>
    simp only [List.cons_append, List.takeWhile_cons] at ih h ⊢
    split <;> rename_i hd
    · rw [if_pos hd, List.length_cons, List.length_cons] at h
      rw [ih (by omega)]
    · rfl

theorem digits?_insert {p : Char → Bool} (hp : ∀ c, p c → isWordPart c) {a : List Char}
    (h : ∀ ds, digits? p (a ++ b) = some ds → ds.length ≤ a.length) :
    digits? p (a ++ (c :: w ++ b)) = digits? p (a ++ b) := by
  have hlen : ((a ++ b).takeWhile p).length ≤ a.length := by
    by_cases hne : (a ++ b).takeWhile p = []
    · simp [hne]
    · exact h _ (digits?_eq_some.2 ⟨rfl, hne⟩)
  rw [digits?, digits?, takeWhile_insert hc w b hp hlen]

theorem basedNumeral?_insert {a : List Char} (hne : a ≠ [])
    (h : ∀ x, basedNumeral? (a ++ b) = some x → x.chars.length ≤ a.length) :
    basedNumeral? (a ++ (c :: w ++ b)) = basedNumeral? (a ++ b) := by
  rcases a with _ | ⟨d, _ | ⟨e, a⟩⟩
  · exact absurd rfl hne
  · -- a numeral has more than one character, and none goes on with what is inserted
    have hnone : basedNumeral? ([d] ++ b) = none := by
      refine Option.eq_none_iff_forall_ne_some.2 fun x hx => ?_
      have hlen := h x hx
      unfold basedNumeral? at hx
      split at hx
      · obtain ⟨ds, -, rfl⟩ := Option.map_eq_some_iff.1 hx
        simp [Lexeme.chars] at hlen
      · obtain ⟨ds, -, rfl⟩ := Option.map_eq_some_iff.1 hx
        simp [Lexeme.chars] at hlen
      · cases hx
    have hx : c ≠ 'x' := by
      rintro rfl
      exact absurd hc (by decide)
    have hb : c ≠ 'b' := by
      rintro rfl
      exact absurd hc (by decide)
    rw [hnone]
    simp [basedNumeral?, hx, hb]
  · by_cases hx : d = '0' ∧ e = 'x'
    · obtain ⟨rfl, rfl⟩ := hx
      simp only [List.cons_append, basedNumeral?] at h ⊢
      rw [← List.cons_append, digits?_insert hc w b fun _ => isWordPart_of_isHexDigit]
      intro ds hds
      simpa [Lexeme.chars] using h (.hexadecimal ds) (by rw [hds]; rfl)
    by_cases hb : d = '0' ∧ e = 'b'
    · obtain ⟨rfl, rfl⟩ := hb
      simp only [List.cons_append, basedNumeral?] at h ⊢
      rw [← List.cons_append, digits?_insert hc w b fun _ => isWordPart_of_isBinaryDigit]
      intro ds hds
      simpa [Lexeme.chars] using h (.binary ds) (by rw [hds]; rfl)
    have hnone : ∀ rest, basedNumeral? (d :: e :: rest) = none := by
      intro rest
      unfold basedNumeral?
      split <;> simp_all
    simp only [List.cons_append, hnone]

theorem decimalNumeral?_insert {a : List Char} (hne : a ≠ [])
    (h : ∀ x, decimalNumeral? (a ++ b) = some x → x.chars.length ≤ a.length) :
    decimalNumeral? (a ++ (c :: w ++ b)) = decimalNumeral? (a ++ b) := by
  rcases a with _ | ⟨d, a⟩
  · exact absurd rfl hne
  by_cases hd : d = '-'
  · subst hd
    simp only [List.cons_append, decimalNumeral?] at h ⊢
    rw [← List.cons_append, digits?_insert hc w b fun _ => isWordPart_of_isDigit]
    intro ds hds
    have hlen := h (.decimal true ds) (by rw [hds]; rfl)
    simpa [Lexeme.chars] using hlen
  · have hdigits : ∀ rest, decimalNumeral? (d :: rest) =
        (digits? Char.isDigit (d :: rest)).map (.decimal false) := by
      intro rest
      unfold decimalNumeral?
      split <;> simp_all
    simp only [List.cons_append, hdigits] at h ⊢
    rw [← List.cons_append, ← List.cons_append,
      digits?_insert hc w b fun _ => isWordPart_of_isDigit]
    · rfl
    · intro ds hds
      simpa [Lexeme.chars] using h (.decimal false ds) (by rw [← List.cons_append, hds]; rfl)

theorem wordOrSign?_insert {a : List Char} (hne : a ≠ [])
    (h : ∀ x, wordOrSign? (a ++ b) = some x → x.chars.length ≤ a.length) :
    wordOrSign? (a ++ (c :: w ++ b)) = wordOrSign? (a ++ b) := by
  rcases a with _ | ⟨d, a⟩
  · exact absurd rfl hne
  simp only [List.cons_append, wordOrSign?] at h ⊢
  split
  · rename_i hd
    rw [← List.cons_append, takeWhile_insert hc w b fun _ h => h]
    simpa [hd, Lexeme.chars] using h
  · rfl

/-- **A lexeme does not reach beyond its characters.** The same is read in front of something that
is inserted behind it, if no word or number goes on with its first character. -/
theorem lexeme?_insert {a : List Char} {x : Lexeme} (h : lexeme? (a ++ b) = some x)
    (hlen : x.chars.length ≤ a.length) : lexeme? (a ++ (c :: w ++ b)) = some x := by
  have hne : a ≠ [] := by
    rintro rfl
    exact Lexer.chars_ne_nil_of_lexeme? h (List.length_eq_zero_iff.1 (Nat.le_zero.1 hlen))
  -- each reader that comes to its turn finds the same as before
  rw [lexeme?, Option.or_eq_some_iff, Option.or_eq_some_iff] at h ⊢
  rcases h with (hbased | ⟨hbased, hdecimal⟩) | ⟨hnone, hword⟩
  · rw [basedNumeral?_insert hc w b hne (by simp [hbased, hlen])]
    exact .inl (.inl hbased)
  · rw [basedNumeral?_insert hc w b hne (by simp [hbased]),
      decimalNumeral?_insert hc w b hne (by simp [hdecimal, hlen])]
    exact .inl (.inr ⟨hbased, hdecimal⟩)
  · obtain ⟨hbased, hdecimal⟩ := Option.or_eq_none_iff.1 hnone
    rw [basedNumeral?_insert hc w b hne (by simp [hbased]),
      decimalNumeral?_insert hc w b hne (by simp [hdecimal]),
      wordOrSign?_insert hc w b hne (by simp [hword, hlen])]
    exact .inr ⟨hnone, hword⟩

omit b in
/-- What is read at the start of a text does not depend on what stands behind it, if no word or
number goes on with that. -/
theorem lexeme?_append_cons {a : List Char} (hne : a ≠ []) :
    lexeme? (a ++ c :: w) = lexeme? a := by
  have hbased := basedNumeral?_insert hc w [] hne
  have hdecimal := decimalNumeral?_insert hc w [] hne
  have hword := wordOrSign?_insert hc w [] hne
  simp only [List.append_nil] at hbased hdecimal hword
  rw [lexeme?, lexeme?, hbased fun x hx => (prefix_of_basedNumeral? hx).1.length_le,
    hdecimal fun x hx => (prefix_of_decimalNumeral? hx).1.length_le,
    hword fun x hx => (prefix_of_wordOrSign? hx).1.length_le]

end

end Eqasm
