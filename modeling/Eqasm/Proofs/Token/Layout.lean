import Eqasm.Proofs.Text.Lowercase
import Eqasm.Proofs.Token.Tiling

/-!
# Layout between tokens

A gap may be inserted at every place that is in no token (`Between`), as well as in front of line
ends (`Tiled.between`): the lexer finds the same tokens on the same lines (`tokenize_insert`).

The tilings of the two texts are compared gap by gap and lexeme by lexeme (`Tiled.insert`). A text
has one tiling only (`Tiled.unique`), so they are what the lexer finds.
-/

namespace Eqasm

/-! ## Gaps -/

/-- A gap only depends on the next character behind it. -/
theorem Gap.of_head?_eq {rest rest' gap : List Char} (h : Gap rest gap)
    (hhead : rest'.head? = rest.head?) : Gap rest' gap := by
  induction h with
  | nil => exact .nil
  | blank hc _ ih => exact .blank hc ih
  | comment h hrest => exact .comment h (hhead ▸ hrest)

/-- A gap starts with a separator. -/
theorem Gap.isSeparator {rest gap : List Char} {c : Char} (h : Gap rest (c :: gap)) :
    IsSeparator c := by
  cases h with
  | blank hc =>
    rcases hc with hc | hc | hc
    · exact .inl hc
    · exact .inr (.inl hc)
    · exact .inr (.inr (.inl hc))
  | comment => exact .inr (.inr (.inr rfl))

/-- Nothing of a gap is left behind a comment. -/
theorem Gap.eq_nil_or_noComment {rest w gap : List Char} (hw : Gap (gap ++ rest) w)
    (hgap : '\n' ∉ gap) : gap = [] ∨ ∀ c ∈ w, c = ' ' ∨ c = '\t' ∨ c = '\r' := by
  induction hw with
  | nil => simp
  | blank hc _ ih => exact ih.imp_right fun h => List.forall_mem_cons.2 ⟨hc, h⟩
  | comment h hrest =>
    cases gap with
    | nil => exact .inl rfl
    | cons c gap =>
      obtain rfl : c = '\n' := hrest c rfl
      simp at hgap

theorem Gap.blanks_append {rest w gap : List Char} (h : Gap rest gap)
    (hw : ∀ c ∈ w, c = ' ' ∨ c = '\t' ∨ c = '\r') : Gap rest (w ++ gap) := by
  induction w with
  | nil => exact h
  | cons c w ih =>
    obtain ⟨hc, hw⟩ := List.forall_mem_cons.1 hw
    exact .blank hc (ih hw)

/-- What is inserted into a gap makes a longer one. -/
theorem Gap.insert {rest u gap w : List Char} (h : Gap rest (u ++ gap))
    (hw : Gap (gap ++ rest) w) : Gap rest (u ++ (w ++ gap)) := by
  induction u with
  | nil =>
    rcases hw.eq_nil_or_noComment h.newline_notMem with rfl | hblanks
    · rwa [List.append_nil]
    · exact h.blanks_append hblanks
  | cons c u ih =>
    cases h with
    | blank hc h => exact .blank hc (ih h)
    | comment h hrest =>
      obtain ⟨hu, hgap⟩ := not_or.1 (mt List.mem_append.2 h)
      refine .comment ?_ hrest
      simp only [List.append_eq, List.mem_append, not_or]
      exact ⟨hu, hw.newline_notMem, hgap⟩

/-! ## Places between tokens -/

/-- The place between `u` and `v` is in no token of `u ++ v`: it is in a gap, or at its start or its
end. -/
inductive Between : List Char → List Char → Prop
  | gap {u gap rest : List Char} (hgap : Gap rest (u ++ gap)) (hrest : NoBlank rest) :
    Between u (gap ++ rest)
  | behind {gap u v : List Char} {x : Lexeme} (hgap : Gap (x.chars ++ (u ++ v)) gap)
    (hx : lexeme? (x.chars ++ (u ++ v)) = some x) (h : Between u v) :
    Between (gap ++ (x.chars ++ u)) v

/-- A place in front of a gap is between tokens. -/
theorem Between.nil (v : List Char) : Between [] v := by
  obtain ⟨rest, hv, hgap, hrest⟩ := exists_gap v
  rw [hv]
  exact .gap hgap hrest

theorem lineBehind_congr {before before' : List Char} (h : lineBehind before' = lineBehind before)
    (more : List Char) : lineBehind (before' ++ more) = lineBehind (before ++ more) := by
  simp only [lineBehind, List.count_append] at h ⊢
  omega

namespace Tiled

/-- A text has the same tokens behind any other text, and on the same lines if that ends in the same
line. -/
theorem relocate {before text : List Char} {ts : List Located} (h : Tiled before text (ts.map .ok))
    (before' : List Char) :
    ∃ ts' : List Located, Tiled before' text (ts'.map .ok) ∧
      ts'.map (·.token) = ts.map (·.token) ∧
      (lineBehind before' = lineBehind before → ts'.map (·.onLine) = ts.map (·.onLine)) := by
  induction ts generalizing before before' text with
  | nil =>
    cases h with
    | ending hgap => exact ⟨[], .ending hgap, rfl, fun _ => rfl⟩
  | cons _ ts ih =>
    cases h with
    | @token _ gap _ x _ _ hgap hx ht h =>
      obtain ⟨ts', htiled, htokens, hlines⟩ := ih h (before' ++ gap ++ x.chars)
      refine ⟨_ :: ts', .token hgap hx ht htiled, ?_, fun hline => ?_⟩
      · rw [List.map_cons, List.map_cons, htokens]
      · rw [List.map_cons, List.map_cons,
          hlines (lineBehind_congr (lineBehind_congr hline gap) x.chars)]
        simp only [Located.onLine, lineBehind_congr hline]

/-- The first token of a text stands behind its gap. -/
theorem of_gap {before gap rest : List Char} {ts : List Located}
    (h : Tiled before (gap ++ rest) (ts.map .ok)) (hgap : Gap rest gap) (hrest : NoBlank rest) :
    rest = [] ∧ ts = [] ∨ ∃ x t behind others, rest = x.chars ++ behind ∧ lexeme? rest = some x ∧
      x.token = .ok t ∧
      ts = ⟨t, lineBehind (before ++ gap), columnBehind (before ++ gap)⟩ :: others ∧
      Tiled (before ++ gap ++ x.chars) behind (others.map .ok) := by
  have hblanks := blanks_of_gap hgap hrest
  generalize htext : gap ++ rest = text at h hblanks
  cases ts with
  | nil =>
    cases h with
    | ending hgap' =>
      have hsame := blanks_of_gap hgap' rfl
      rw [List.append_nil, hblanks] at hsame
      subst hsame
      exact .inl ⟨List.append_right_eq_self.1 htext, rfl⟩
  | cons _ others =>
    cases h with
    | @token _ _ behind x t _ hgap' hx ht h =>
      rw [blanks_of_gap hgap' (noBlank_of_lexeme? hx)] at hblanks
      subst hblanks
      obtain rfl := List.append_cancel_left htext
      exact .inr ⟨x, t, behind, others, rfl, hx, ht, rfl, h⟩

/-- A text that starts with a lexeme starts with its token. -/
theorem of_lexeme? {before gap rest : List Char} {x : Lexeme} {ts : List Located}
    (h : Tiled before (gap ++ (x.chars ++ rest)) (ts.map .ok))
    (hgap : Gap (x.chars ++ rest) gap) (hx : lexeme? (x.chars ++ rest) = some x) :
    ∃ t others, x.token = .ok t ∧
      ts = ⟨t, lineBehind (before ++ gap), columnBehind (before ++ gap)⟩ :: others ∧
      Tiled (before ++ gap ++ x.chars) rest (others.map .ok) := by
  rcases h.of_gap hgap (noBlank_of_lexeme? hx) with
    ⟨hnil, -⟩ | ⟨x', t, behind, others, hrest, hx', ht, hts, hothers⟩
  · simp [Lexer.chars_ne_nil_of_lexeme? hx] at hnil
  · obtain rfl : x = x' := Option.some.inj (hx.symm.trans hx')
    obtain rfl := List.append_cancel_left hrest
    exact ⟨t, others, ht, hts, hothers⟩

/-- The tokens of a text are the only items that tile it. -/
theorem unique {before text : List Char} {ts : List Located}
    {items : List (Except LexError Located)} (h : Tiled before text items)
    (hts : Tiled before text (ts.map .ok)) : items = ts.map .ok := by
  induction h generalizing ts with
  | @ending _ gap hgap =>
    rw [← List.append_nil gap] at hts
    rcases hts.of_gap hgap rfl with ⟨-, rfl⟩ | ⟨x, t, behind, others, -, hx, -⟩
    · rfl
    · cases hx
  | token hgap hx ht _ ih =>
    obtain ⟨t, others, ht', rfl, hothers⟩ := hts.of_lexeme? hgap hx
    obtain rfl := Except.ok.inj (ht.symm.trans ht')
    rw [ih hothers]
    rfl
  | @illegal _ gap rest c hgap hc hx =>
    have hrest : NoBlank (c :: rest) := noBlank_iff.2 fun _ hd => Option.mem_some.1 hd ▸ hc
    rcases hts.of_gap hgap hrest with ⟨hnil, -⟩ | ⟨x, t, behind, others, -, hx', -⟩
    · cases hnil
    · cases hx.symm.trans hx'
  | overflow hgap hx ht =>
    obtain ⟨t, _, ht', -⟩ := hts.of_lexeme? hgap hx
    cases ht.symm.trans ht'

/-- **A gap that is inserted between tokens changes no token and no line.** -/
theorem insert {before before' u v w : List Char} {ts : List Located}
    (h : Tiled before (u ++ v) (ts.map .ok)) (hplace : Between u v) (hw : Gap v w)
    (hline : lineBehind before' = lineBehind before) :
    ∃ ts' : List Located, Tiled before' (u ++ (w ++ v)) (ts'.map .ok) ∧
      ts'.map (·.onLine) = ts.map (·.onLine) := by
  induction hplace generalizing before before' ts with
  | @gap u gap rest hgap hrest =>
    have hlong := hgap.insert hw
    have htext : u ++ (w ++ (gap ++ rest)) = u ++ (w ++ gap) ++ rest := by
      simp only [List.append_assoc]
    rw [← List.append_assoc] at h
    rw [htext]
    rcases h.of_gap hgap hrest with
      ⟨rfl, rfl⟩ | ⟨x, t, behind, others, rfl, hx, ht, rfl, hothers⟩
    · rw [List.append_nil]
      exact ⟨[], .ending hlong, rfl⟩
    · have hgapline :
          lineBehind (before' ++ (u ++ (w ++ gap))) = lineBehind (before ++ (u ++ gap)) := by
        rw [lineBehind_append hlong.newline_notMem, lineBehind_append hgap.newline_notMem, hline]
      obtain ⟨ts', htiled, -, hlines⟩ :=
        hothers.relocate (before' ++ (u ++ (w ++ gap)) ++ x.chars)
      refine ⟨_ :: ts', .token hlong hx ht htiled, ?_⟩
      rw [List.map_cons, List.map_cons, hlines (lineBehind_congr hgapline x.chars)]
      simp only [Located.onLine, hgapline]
  | @behind gap u v x hgap hx _ ih =>
    rw [List.append_assoc, List.append_assoc] at h
    obtain ⟨t, others, ht, rfl, hothers⟩ := h.of_lexeme? hgap hx
    obtain ⟨ts', htiled, hmap⟩ :=
      ih hothers hw (lineBehind_congr (lineBehind_congr hline gap) x.chars)
    have hlexeme : lexeme? (x.chars ++ (u ++ (w ++ v))) = some x := by
      cases w with
      | nil => exact hx
      | cons c w =>
        rw [← List.append_assoc] at hx ⊢
        exact lexeme?_insert hw.isSeparator.isWordPart w v hx (by simp)
    have hnew : Gap (x.chars ++ (u ++ (w ++ v))) gap := by
      refine hgap.of_head?_eq ?_
      rw [List.head?_append_of_ne_nil _ (Lexer.chars_ne_nil_of_lexeme? hx),
        List.head?_append_of_ne_nil _ (Lexer.chars_ne_nil_of_lexeme? hx)]
    rw [List.append_assoc, List.append_assoc]
    refine ⟨_ :: ts', .token hnew hlexeme ht htiled, ?_⟩
    rw [List.map_cons, List.map_cons, hmap]
    simp only [Located.onLine, lineBehind_congr hline]

/-- In front of the end of a line, and at the end of a text, a place is between tokens. -/
theorem between {before u v : List Char} {ts : List Located}
    (h : Tiled before (u ++ v) (ts.map .ok)) (hv : ∀ c ∈ v.head?, c = '\n') : Between u v := by
  generalize htext : u ++ v = text at h
  induction ts generalizing before u text with
  | nil =>
    cases h with
    | ending hgap =>
      subst htext
      have hempty : Between u (v ++ []) := .gap hgap rfl
      rwa [List.append_nil] at hempty
  | cons _ ts ih =>
    cases h with
    | @token _ gap rest x _ _ hgap hx ht h =>
      rcases List.append_eq_append_iff.1 htext with ⟨gap', rfl, rfl⟩ | ⟨u', rfl, hrest⟩
      · exact .gap hgap (noBlank_of_lexeme? hx)
      rcases List.append_eq_append_iff.1 hrest with ⟨u', rfl, rfl⟩ | ⟨chars, hchars, rfl⟩
      · exact .behind hgap hx (ih _ rfl h)
      cases chars with
      | nil =>
        rw [List.append_nil] at hchars
        have hbehind := Between.behind hgap hx (.nil rest)
        rwa [List.append_nil, hchars] at hbehind
      | cons c chars =>
        -- the end of a line is no part of a longer lexeme
        obtain rfl : c = '\n' := hv c rfl
        have hsign := eq_sign_of_lexeme? hx (by simp [hchars])
        obtain rfl : u' = [] := by
          have hlength := congrArg List.length hchars
          simp only [hsign, Lexeme.chars, List.length_append, List.length_cons,
            List.length_nil] at hlength
          exact List.length_eq_zero_iff.1 (by omega)
        have hgap : Gap (x.chars ++ rest) (gap ++ []) := by rwa [List.append_nil]
        have hstart := Between.gap hgap (noBlank_of_lexeme? hx)
        rw [List.append_nil]
        rwa [List.nil_append, hchars] at hstart

end Tiled

/-! ## Lexers -/

namespace Lexer

/-- A gap that is inserted between the tokens of a text changes no token and no line. -/
theorem remaining_insert {u v w : List Char} {ts : List Located}
    (h : (start (u ++ v)).remaining = ts.map .ok) (hplace : Between u v) (hw : Gap v w) :
    ∃ ts' : List Located, (start (u ++ (w ++ v))).remaining = ts'.map .ok ∧
      ts'.map (·.onLine) = ts.map (·.onLine) := by
  have htiled : Tiled [] (u ++ v) (ts.map .ok) := h ▸ tiled_start _
  obtain ⟨ts', hnew, hmap⟩ := htiled.insert hplace hw rfl
  exact ⟨ts', (tiled_start _).unique hnew, hmap⟩

end Lexer

/-! ## Letter case -/

/-- A comment stays a comment in lower case. -/
theorem exists_lowered_comment {text v : List Char} (h : '\n' ∉ text)
    (hv : ∀ c ∈ v, Text.Fixed c) (before : List Char) :
    ∃ lowered, Text.lowerFrom before (text ++ v) = lowered ++ v ∧ '\n' ∉ lowered := by
  obtain ⟨lowered, hlowered, hnewline⟩ := Text.exists_lowerFrom_append before text v
  rw [Text.lowerFrom_of_fixed hv] at hlowered
  exact ⟨lowered, hlowered, hnewline h⟩

/-- A gap stays a gap in lower case. -/
theorem Gap.exists_lowered {v w : List Char} (h : Gap v w) (hv : ∀ c ∈ v, Text.Fixed c)
    (before : List Char) :
    ∃ lowered, Text.lowerFrom before (w ++ v) = lowered ++ v ∧ Gap v lowered := by
  induction h generalizing before with
  | nil => exact ⟨[], Text.lowerFrom_of_fixed hv before, .nil⟩
  | @blank c gap hc _ ih =>
    obtain ⟨lowered, hlowered, hgap⟩ := ih (c :: before)
    have hfixed : Text.Fixed c := by
      rcases hc with rfl | rfl | rfl
      · exact fun _ _ => rfl
      · exact fun _ _ => rfl
      · exact fun _ _ => rfl
    refine ⟨c :: lowered, ?_, .blank hc hgap⟩
    rw [List.cons_append, Text.lowerFrom, hfixed, hlowered]
    rfl
  | @comment text h hrest =>
    obtain ⟨lowered, hlowered, hnewline⟩ := exists_lowered_comment h hv ('#' :: before)
    refine ⟨'#' :: lowered, ?_, .comment hnewline hrest⟩
    rw [List.cons_append, Text.lowerFrom, hlowered]
    rfl

/-- **Layout does not matter to the lexer.** -/
theorem tokenize_insert {u v w : String} {ts : List Located}
    (hlower : Text.lower (u ++ v).toList = (u ++ v).toList) (hts : tokenize (u ++ v) = .ok ts)
    (hplace : Between u.toList v.toList ∨ ∀ c ∈ v.toList.head?, c = '\n')
    (hw : Gap v.toList w.toList) :
    ∃ ts', tokenize (u ++ w ++ v) = .ok ts' ∧ ts'.map (·.onLine) = ts.map (·.onLine) := by
  rw [tokenize, mapM_id_eq_ok, Lexer.ofString, hlower, String.toList_append] at hts
  obtain ⟨hu, hv⟩ := List.forall_mem_append.1 (Text.fixed_of_lower (String.toList_append ▸ hlower))
  have hbetween : Between u.toList v.toList := by
    rcases hplace with h | h
    · exact h
    · have htiled : Tiled [] (u.toList ++ v.toList) (ts.map .ok) :=
        hts ▸ Lexer.tiled_start _
      exact htiled.between h
  obtain ⟨w', hw', hgap⟩ := hw.exists_lowered hv (u.toList.reverse ++ [])
  obtain ⟨ts', hts', hmap⟩ := Lexer.remaining_insert hts hbetween hgap
  refine ⟨ts', ?_, hmap⟩
  rw [tokenize, mapM_id_eq_ok, Lexer.ofString, String.toList_append, String.toList_append,
    List.append_assoc, Text.lower, Text.lowerFrom_append hu, hw']
  exact hts'

end Eqasm
