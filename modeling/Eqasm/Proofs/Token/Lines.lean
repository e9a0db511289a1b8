import Eqasm.Proofs.Token.Layout

/-!
# Texts are lexed line by line

A line has its tokens by itself (`Lexes`): no token goes beyond the end of a line, and neither does
a comment. So if a text has tokens, these are the tokens of its lines with a line end between each
two (`lexes_lines`).
-/

namespace Eqasm

/-- The tokens that a text in lower case has by itself. -/
def Lexes (text : List Char) (tokens : List Token) : Prop :=
  ∃ ts : List Located, (Lexer.start text).remaining = ts.map .ok ∧ ts.map (·.token) = tokens

theorem lexes_nil : Lexes [] [] :=
  ⟨[], Lexer.remaining_of_next_none rfl, rfl⟩

theorem Lexes.unique {text : List Char} {tokens others : List Token} (h : Lexes text tokens)
    (h' : Lexes text others) : tokens = others := by
  obtain ⟨ts, hts, rfl⟩ := h
  obtain ⟨us, hus, rfl⟩ := h'
  have hinjective : Function.Injective (Except.ok (ε := LexError) (α := Located)) :=
    fun _ _ e => Except.ok.inj e
  rw [List.map_injective_iff.2 hinjective (hts.symm.trans hus)]

theorem Lexes.exists_tokenize {source : String} {tokens : List Token}
    (h : Lexes (Text.lower source.toList) tokens) :
    ∃ ts, tokenize source = .ok ts ∧ ts.map (·.token) = tokens := by
  obtain ⟨ts, hts, htokens⟩ := h
  exact ⟨ts, mapM_id_eq_ok.2 hts, htokens⟩

/-- What a text starts with in front of its first line end stands in the first line. -/
theorem exists_append_of_notMem {α : Type} {a : α} {xs ys us vs : List α}
    (h : xs ++ a :: ys = us ++ vs) (hus : a ∉ us) : ∃ zs, xs = us ++ zs ∧ vs = zs ++ a :: ys := by
  rcases List.append_eq_append_iff.1 h with ⟨zs, rfl, e⟩ | ⟨zs, rfl, e⟩
  · cases zs with
    | nil => exact ⟨[], by simp, e.symm⟩
    | cons z zs =>
      obtain ⟨rfl, -⟩ := List.cons.inj e
      simp at hus
  · exact ⟨zs, rfl, e⟩

/-- What stands behind the end of a line does not belong to a gap in front of it. -/
theorem Gap.line {line rest gap : List Char} (h : Gap (line ++ '\n' :: rest) gap) :
    Gap line gap := by
  induction h with
  | nil => exact .nil
  | blank hc _ ih => exact .blank hc ih
  | comment h hrest =>
    refine .comment h fun c hc => hrest c ?_
    rw [Option.mem_def] at hc ⊢
    rw [List.head?_append, hc]
    rfl

namespace Tiled

variable {before text : List Char} {ts : List Located}

theorem lexes (h : Tiled before text (ts.map .ok)) : Lexes text (ts.map (·.token)) := by
  obtain ⟨ts', htiled, htokens, -⟩ := h.relocate []
  exact ⟨ts', (Lexer.tiled_start _).unique htiled, htokens⟩

/-- No token ends a line in a text of one line. -/
theorem newline_notMem (h : Tiled before text (ts.map .ok)) (htext : '\n' ∉ text) :
    .newline ∉ ts.map (·.token) := by
  induction ts generalizing before text with
  | nil => simp
  | cons _ ts ih =>
    cases h with
    | token hgap hx ht h =>
      simp only [List.mem_append, not_or] at htext
      rw [List.map_cons, List.mem_cons, not_or]
      refine ⟨?_, ih h htext.2.2⟩
      rintro rfl
      exact htext.2.1 (by simp [chars_of_newline hx ht])

/-- **A text is cut at the end of a line**, and so are its tokens. -/
theorem cut {line rest : List Char} (h : Tiled before (line ++ '\n' :: rest) (ts.map .ok))
    (hline : '\n' ∉ line) :
    ∃ first t more, ts = first ++ t :: more ∧ t.token = .newline ∧
      Tiled before line (first.map .ok) ∧
      Tiled (before ++ line ++ ['\n']) rest (more.map .ok) := by
  generalize htext : line ++ '\n' :: rest = text at h
  induction ts generalizing before line text with
  | nil =>
    cases h with
    | ending hgap => exact absurd (by simp [← htext]) hgap.newline_notMem
  | cons _ ts ih =>
    cases h with
    | @token _ gap behind x t _ hgap hx ht h =>
      obtain ⟨line, rfl, hbehind⟩ := exists_append_of_notMem htext hgap.newline_notMem
      rw [hbehind] at hgap hx
      by_cases hchars : '\n' ∈ x.chars
      · -- the end of the line is the first token, which stands behind its gap
        obtain rfl := eq_sign_of_lexeme? hx hchars
        obtain rfl := Except.ok.inj ht
        obtain ⟨rfl, rfl⟩ : line = [] ∧ behind = rest := by
          cases line with
          | nil => simpa [Lexeme.chars] using hbehind
          | cons c line =>
            obtain ⟨rfl, -⟩ := List.cons.inj hbehind
            simp at hline
        rw [List.append_nil]
        exact ⟨[], _, ts, rfl, rfl, .ending hgap.line, by simpa [Lexeme.chars] using h⟩
      · obtain ⟨line, rfl, rfl⟩ := exists_append_of_notMem hbehind.symm hchars
        have hline' : '\n' ∉ line := fun hmem => hline (by simp [hmem])
        obtain ⟨first, u, more, rfl, hu, hfirst, hmore⟩ := ih hline' _ rfl h
        have hne : x.chars ++ line ≠ [] := by simp [Lexer.chars_ne_nil_of_lexeme? hx]
        rw [lexeme?_append_cons (by decide) _ hne] at hx
        refine ⟨_ :: first, u, more, rfl, hu, .token hgap.line hx ht hfirst, ?_⟩
        simpa only [List.append_assoc] using hmore

/-- The lines of a text have their tokens by themselves. -/
theorem lexes_splitOn (h : Tiled before text (ts.map .ok)) :
    List.Forall₂ Lexes (text.splitOn '\n') ((ts.map (·.token)).splitOn .newline) := by
  -- the induction is on the length of the text; the first line is cut off
  induction hlength : text.length using Nat.strongRecOn generalizing before text ts with
  | ind n ih =>
    by_cases hmem : '\n' ∈ text
    · obtain ⟨line, rest, rfl, hline⟩ := List.eq_append_cons_of_mem hmem
      obtain ⟨first, t, more, rfl, ht, hfirst, hmore⟩ := h.cut hline
      have hlt : rest.length < n := by
        simp only [List.length_append, List.length_cons] at hlength
        omega
      rw [List.map_append, List.map_cons, ht,
        List.splitOn_append_cons_self_of_not_mem hline,
        List.splitOn_append_cons_self_of_not_mem (hfirst.newline_notMem hline)]
      exact .cons hfirst.lexes (ih _ hlt hmore rfl)
    · rw [List.splitOn_eq_singleton hmem, List.splitOn_eq_singleton (h.newline_notMem hmem)]
      exact .cons h.lexes .nil

end Tiled

/-- A token stands in front of the other tokens of a text, and a gap may stand in front of it. -/
theorem Lexes.cons {gap rest : List Char} {x : Lexeme} {t : Token} {tokens : List Token}
    (h : Lexes rest tokens) (hgap : Gap (x.chars ++ rest) gap)
    (hx : lexeme? (x.chars ++ rest) = some x) (ht : x.token = .ok t) :
    Lexes (gap ++ (x.chars ++ rest)) (t :: tokens) := by
  obtain ⟨ts, hts, rfl⟩ := h
  have hrest : Tiled [] rest (ts.map .ok) := hts ▸ Lexer.tiled_start _
  obtain ⟨ts', hmoved, htokens, -⟩ := hrest.relocate ([] ++ gap ++ x.chars)
  have htext : Tiled [] (gap ++ (x.chars ++ rest))
      ((⟨t, lineBehind ([] ++ gap), columnBehind ([] ++ gap)⟩ :: ts').map .ok) :=
    .token hgap hx ht hmoved
  have hlexes := htext.lexes
  rwa [List.map_cons, htokens] at hlexes

/-- A token that is spelled in front of the other tokens of a text, behind blanks. -/
theorem Lexes.spelling {gap rest : List Char} {t : Token} {tokens : List Token}
    (h : Lexes rest tokens) (hgap : ∀ c ∈ gap, c = ' ') (ht : t.Valid)
    (hr : t.isSign = false → Breaks rest) : Lexes (gap ++ (t.spelling ++ rest)) (t :: tokens) := by
  obtain ⟨x, hx, hchars, htoken⟩ := lexeme?_spelling ht hr
  rw [← hchars] at hx ⊢
  have hnil : Gap (x.chars ++ rest) [] := .nil
  have hblanks := hnil.blanks_append fun c hc => .inl (hgap c hc)
  rw [List.append_nil] at hblanks
  exact h.cons hblanks hx htoken

/-- A blank in front of a text is no token. -/
theorem Lexes.blank {text : List Char} {tokens : List Token} (h : Lexes text tokens) :
    Lexes (' ' :: text) tokens := by
  obtain ⟨ts, hts, rfl⟩ := h
  obtain ⟨ts', hts', hlines⟩ :=
    Lexer.remaining_insert (u := []) hts (.nil text) (.blank (.inl rfl) .nil)
  refine ⟨ts', hts', ?_⟩
  have htokens := congrArg (List.map (·.token)) hlines
  rwa [List.map_map, List.map_map] at htokens

/-- **A row has the tokens that it is written with**, if its words and numbers stand apart. -/
theorem lexes_row {r : Row} (ha : r.Apart) (hv : r.All Token.Valid) : Lexes r.text r.tokens := by
  induction r with
  | nil => exact lexes_nil
  | cons p r ih =>
    cases p with
    | none => exact (ih ha.tail (Row.all_blank.1 hv)).blank
    | some t =>
      obtain ⟨ht, hv⟩ := Row.all_token.1 hv
      have hnil : ∀ c ∈ ([] : List Char), c = ' ' := by simp
      exact (ih ha.tail hv).spelling hnil ht ha.breaks_text

/-- **A text has the tokens of a row that it is written as**, in any letter case. -/
theorem tokenize_of_row {source : String} {r : Row} (hsource : Text.lower source.toList = r.text)
    (ha : r.Apart) (hv : r.All Token.Valid) :
    ∃ ts, tokenize source = .ok ts ∧ ts.map (·.token) = r.tokens :=
  Lexes.exists_tokenize (hsource ▸ lexes_row ha hv)

/-- **A text is lexed line by line.** -/
theorem lexes_lines {source : String} {ts : List Located} (hts : tokenize source = .ok ts) :
    List.Forall₂ Lexes ((Text.lower source.toList).splitOn '\n')
      ((ts.map (·.token)).splitOn .newline) := by
  rw [tokenize, mapM_id_eq_ok] at hts
  have htiled : Tiled [] (Text.lower source.toList) (ts.map .ok) :=
    hts ▸ Lexer.tiled_start _
  exact htiled.lexes_splitOn

/-- The tokens of one line of a text, and those of the lines in front of it. -/
theorem exists_lexed {source : String} {ts : List Located} (hts : tokenize source = .ok ts)
    {before after : List (List Char)} {line : List Char}
    (hlines : (Text.lower source.toList).splitOn '\n' = before ++ line :: after) :
    ∃ earlier tokens later, (ts.map (·.token)).splitOn .newline = earlier ++ tokens :: later ∧
      List.Forall₂ Lexes before earlier ∧ Lexes line tokens := by
  have hall := lexes_lines hts
  rw [hlines] at hall
  have hbefore := List.forall₂_take before.length hall
  have hbehind := List.forall₂_drop before.length hall
  rw [List.take_left] at hbefore
  rw [List.drop_left, List.forall₂_cons_left_iff] at hbehind
  obtain ⟨tokens, later, hline, -, hdrop⟩ := hbehind
  exact ⟨_, tokens, later, by rw [← hdrop, List.take_append_drop], hbefore, hline⟩

end Eqasm
