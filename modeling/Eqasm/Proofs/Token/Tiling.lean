import Eqasm.Proofs.Except
import Eqasm.Proofs.Token.Gap

/-!
# Texts are tiled by their tokens

The items of a lexer are tokens, and an error if the text cannot be read to its end. They tile the
text (`Tiled`): gaps and lexemes follow one another without anything left out or read twice, and
each item stands at the line and the column behind what comes in front of it.

What one call does is `Lexer.nexts_of_next`. By it a lexer that stands behind a part of the text
stands behind a longer part after the call (`Lexer.At.of_nexts`), and what it finds tiles the rest
(`Lexer.tiled_remaining`). `Lexer.exact_ofString` puts together what follows for all calls, and
`valid_of_tokenize` says that all tokens are valid.
-/

namespace Eqasm

/-! ## Tilings -/

/-- The items of a text that stands behind `before`: gap by gap and lexeme by lexeme, without
anything left out or read twice. Every item stands behind its gap. The text ends with a gap, or the
items end with an error where no lexeme starts or a number is too large. -/
inductive Tiled : List Char → List Char → List (Except LexError Located) → Prop
  | ending {before gap : List Char} (hgap : Gap [] gap) : Tiled before gap []
  | token {before gap rest : List Char} {x : Lexeme} {t : Token}
    {items : List (Except LexError Located)} (hgap : Gap (x.chars ++ rest) gap)
    (hx : lexeme? (x.chars ++ rest) = some x) (ht : x.token = .ok t)
    (h : Tiled (before ++ gap ++ x.chars) rest items) :
    Tiled before (gap ++ (x.chars ++ rest))
      (.ok ⟨t, lineBehind (before ++ gap), columnBehind (before ++ gap)⟩ :: items)
  | illegal {before gap rest : List Char} {c : Char} (hgap : Gap (c :: rest) gap)
    (hc : ¬ IsSeparator c) (hx : lexeme? (c :: rest) = none) :
    Tiled before (gap ++ c :: rest)
      [.error (.illegalCharacter c (lineBehind (before ++ gap)) (columnBehind (before ++ gap)))]
  | overflow {before gap rest : List Char} {x : Lexeme} {number : String}
    (hgap : Gap (x.chars ++ rest) gap) (hx : lexeme? (x.chars ++ rest) = some x)
    (ht : x.token = .error number) :
    Tiled before (gap ++ (x.chars ++ rest))
      [.error (.integerOverflow number (lineBehind (before ++ gap)) (columnBehind (before ++ gap)))]

namespace Tiled

variable {before text : List Char} {items : List (Except LexError Located)}

/-- There are no more items than characters. -/
theorem length_le (h : Tiled before text items) : items.length ≤ text.length := by
  induction h with
  | ending => exact Nat.zero_le _
  | token _ hx _ _ ih =>
    have hpos := List.length_pos_iff.2 (Lexer.chars_ne_nil_of_lexeme? hx)
    simp only [List.length_cons, List.length_append]
    omega
  | illegal =>
    simp only [List.length_cons, List.length_append, List.length_nil]
    omega
  | overflow _ hx =>
    have hpos := List.length_pos_iff.2 (Lexer.chars_ne_nil_of_lexeme? hx)
    simp only [List.length_cons, List.length_append, List.length_nil]
    omega

/-- All tokens are valid. -/
theorem valid (h : Tiled before text items) : ∀ t : Located, .ok t ∈ items → t.token.Valid := by
  induction h with
  | ending => simp
  | token _ hx ht _ ih =>
    intro t hmem
    rcases List.mem_cons.1 hmem with e | hmem
    · cases e
      exact valid_of_lexeme? hx ht
    · exact ih t hmem
  | illegal | overflow => simp

end Tiled

/-- No separator stands where a lexeme starts. -/
theorem noBlank_of_lexeme? {text : List Char} {x : Lexeme} (h : lexeme? text = some x) :
    NoBlank text := by
  refine noBlank_iff.2 fun c hc hs => ?_
  obtain ⟨rest, rfl⟩ := List.head?_eq_some_iff.1 hc
  rw [lexeme?_separator hs] at h
  cases h

/-! ## Items -/

namespace Lexer

@[simp] theorem source_pass (l : Lexer) (t : Token) (pos : Nat) :
    (l.pass t pos).source = l.source := by
  unfold pass
  split <;> rfl

@[simp] theorem pos_pass (l : Lexer) (t : Token) (pos : Nat) : (l.pass t pos).pos = pos := by
  unfold pass
  split <;> rfl

@[simp] theorem finished_pass (l : Lexer) (t : Token) (pos : Nat) :
    (l.pass t pos).finished = l.finished := by
  unfold pass
  split <;> rfl

theorem rest_of_append {l : Lexer} {before rest : List Char} (h : l.source = before ++ rest)
    (hpos : l.pos = byteLength before) : l.rest = rest := by
  rw [Lexer.rest, h, hpos, dropBytes_append]

theorem offset_of_append {l : Lexer} {before rest : List Char} (h : l.source = before ++ rest) :
    l.offset rest = byteLength before := by
  rw [offset, h, byteLength_append, Nat.add_sub_cancel_right]

theorem ahead_of_append {l : Lexer} {gap rest : List Char} (h : l.rest = gap ++ rest)
    (hgap : Gap rest gap) (hrest : NoBlank rest) : l.ahead = rest := by
  rw [ahead, h, blanks_of_gap hgap hrest, List.drop_left]

/-- The next item of a lexer, or none at the end, and the place behind it. -/
inductive Nexts (l : Lexer) : Option (Except LexError Located) → Lexer → Prop
  | finished (hf : l.finished = true) : Nexts l none l
  | ending (hf : l.finished = false) (hgap : Gap [] l.rest) :
    Nexts l none { l with pos := l.offset [], finished := true }
  | token {gap rest : List Char} {x : Lexeme} {t : Token} (hf : l.finished = false)
    (hl : l.rest = gap ++ (x.chars ++ rest)) (hgap : Gap (x.chars ++ rest) gap)
    (hx : lexeme? (x.chars ++ rest) = some x) (ht : x.token = .ok t) :
    Nexts l (some (.ok ⟨t, l.line, l.column (x.chars ++ rest)⟩))
      (l.pass t (l.offset (x.chars ++ rest) + byteLength x.chars))
  | illegal {gap rest : List Char} {c : Char} (hf : l.finished = false)
    (hl : l.rest = gap ++ c :: rest) (hgap : Gap (c :: rest) gap) (hc : ¬ IsSeparator c)
    (hx : lexeme? (c :: rest) = none) :
    Nexts l (some (.error (.illegalCharacter c l.line (l.column (c :: rest)))))
      { l with finished := true }
  | overflow {gap rest : List Char} {x : Lexeme} {number : String} (hf : l.finished = false)
    (hl : l.rest = gap ++ (x.chars ++ rest)) (hgap : Gap (x.chars ++ rest) gap)
    (hx : lexeme? (x.chars ++ rest) = some x) (ht : x.token = .error number) :
    Nexts l (some (.error (.integerOverflow number l.line (l.column (x.chars ++ rest)))))
      { l with finished := true }

theorem nexts_of_next {l l' : Lexer} {r : Option (Except LexError Located)}
    (h : l.next = (r, l')) : l.Nexts r l' := by
  obtain ⟨rest, hl, hgap, hrest⟩ := exists_gap l.rest
  rw [next, ahead_of_append hl hgap hrest] at h
  split at h
  · rename_i hf
    cases h
    exact .finished hf
  rename_i hf
  rw [Bool.not_eq_true] at hf
  split at h
  · rw [List.append_nil] at hl
    rw [← hl] at hgap
    cases h
    exact .ending hf hgap
  rename_i c others
  dsimp only at h
  split at h
  · rename_i hx
    cases h
    exact .illegal hf hl hgap (noBlank_iff.1 hrest c rfl) hx
  rename_i x hx
  obtain ⟨rest, hothers⟩ := exists_rest_of_lexeme? hx
  rw [hothers] at hl hgap hx h
  split at h
  · rename_i ht
    cases h
    exact .overflow hf hl hgap hx ht
  · rename_i t ht
    cases h
    exact .token hf hl hgap hx ht

theorem nexts_next (l : Lexer) : l.Nexts l.next.1 l.next.2 :=
  nexts_of_next rfl

/-- A lexer that stands behind `before`. -/
structure At (l : Lexer) (before : List Char) : Prop where
  source : l.source = before ++ l.rest
  pos : l.pos = byteLength before
  line : l.line = lineBehind before
  /-- The column behind `before` is counted from the byte where the line starts. -/
  lineStart : l.lineStart + columnBehind before = byteLength before + 1

theorem rest_start (source : List Char) : (start source).rest = source :=
  dropBytes_zero source

theorem at_start (source : List Char) : (start source).At [] :=
  ⟨(rest_start source).symm, rfl, rfl, rfl⟩

section

variable {l : Lexer} {before gap rest : List Char}

/-- A lexer whose text starts with `before` stands behind it. -/
theorem At.of_append (h : l.source = before ++ rest) (hpos : l.pos = byteLength before)
    (hline : l.line = lineBehind before)
    (hstart : l.lineStart + columnBehind before = byteLength before + 1) : l.At before :=
  ⟨by rw [h, rest_of_append h hpos], hpos, hline, hstart⟩

theorem At.source_gap (h : l.At before) (hl : l.rest = gap ++ rest) :
    l.source = before ++ gap ++ rest := by
  rw [List.append_assoc, ← hl]
  exact h.source

theorem At.line_gap (h : l.At before) (hgap : Gap rest gap) :
    l.line = lineBehind (before ++ gap) := by
  rw [lineBehind_append hgap.newline_notMem, h.line]

theorem At.lineStart_append (h : l.At before) {more : List Char} (hmore : '\n' ∉ more) :
    l.lineStart + columnBehind (before ++ more) = byteLength (before ++ more) + 1 := by
  rw [columnBehind_append hmore, ← Nat.add_assoc, h.lineStart, byteLength_append]
  omega

theorem At.column_gap (h : l.At before) (hl : l.rest = gap ++ rest) (hgap : Gap rest gap) :
    l.column rest = columnBehind (before ++ gap) := by
  have hstart := h.lineStart_append hgap.newline_notMem
  have hpos : 0 < columnBehind (before ++ gap) := Nat.succ_pos _
  rw [column, offset_of_append (h.source_gap hl)]
  omega

/-- Behind a token the lexer goes on with what stands behind its lexeme. -/
theorem At.rest_pass (h : l.At before) {chars : List Char} (hl : l.rest = gap ++ (chars ++ rest))
    (t : Token) : (l.pass t (l.offset (chars ++ rest) + byteLength chars)).rest = rest := by
  have hsource := h.source_gap hl
  have hbehind : (l.pass t (l.offset (chars ++ rest) + byteLength chars)).source =
      before ++ gap ++ chars ++ rest := by
    rw [source_pass, hsource, List.append_assoc _ chars]
  refine rest_of_append hbehind ?_
  rw [pos_pass, offset_of_append hsource, byteLength_append (before ++ gap)]

/-- Behind a token the lexer stands behind the gap and the lexeme. -/
theorem At.pass (h : l.At before) {x : Lexeme} {t : Token}
    (hl : l.rest = gap ++ (x.chars ++ rest)) (hgap : Gap (x.chars ++ rest) gap)
    (hx : lexeme? (x.chars ++ rest) = some x) (ht : x.token = .ok t) :
    (l.pass t (l.offset (x.chars ++ rest) + byteLength x.chars)).At (before ++ gap ++ x.chars) := by
  have hsource : l.source = before ++ gap ++ x.chars ++ rest := by
    rw [h.source_gap hl, List.append_assoc _ x.chars]
  rw [offset_of_append (h.source_gap hl), ← byteLength_append]
  refine .of_append (by rw [source_pass, hsource]) (pos_pass ..) ?_ ?_
  · by_cases hn : t = .newline
    · subst hn
      rw [chars_of_newline hx ht, lineBehind_newline, ← h.line_gap hgap]
      rfl
    · rw [lineBehind_append (newline_notMem_of_token hx ht hn), ← h.line_gap hgap, Lexer.pass,
        if_neg hn]
  · by_cases hn : t = .newline
    · subst hn
      rw [chars_of_newline hx ht, columnBehind_newline]
      rfl
    · have hmore : '\n' ∉ gap ++ x.chars := by
        rw [List.mem_append, not_or]
        exact ⟨hgap.newline_notMem, newline_notMem_of_token hx ht hn⟩
      rw [List.append_assoc, Lexer.pass, if_neg hn]
      exact h.lineStart_append hmore

/-- At the end of the text the lexer stands behind all of it. -/
theorem At.ending (h : l.At before) (hgap : Gap [] l.rest) :
    Lexer.At { l with pos := l.offset [], finished := true } (before ++ l.rest) := by
  have hsource : l.source = before ++ l.rest ++ [] := by rw [List.append_nil, ← h.source]
  exact .of_append hsource (offset_of_append hsource) (h.line_gap hgap)
    (h.lineStart_append hgap.newline_notMem)

end

/-- Every item brings the lexer further. -/
theorem At.of_nexts {l l' : Lexer} {before : List Char} (h : l.At before)
    {r : Option (Except LexError Located)} (hn : l.Nexts r l') :
    ∃ more, l'.At (before ++ more) := by
  cases hn with
  | finished => exact ⟨[], by rwa [List.append_nil]⟩
  | ending hf hgap => exact ⟨l.rest, h.ending hgap⟩
  | token hf hl hgap hx ht => exact ⟨_ ++ _, List.append_assoc _ _ _ ▸ h.pass hl hgap hx ht⟩
  | illegal | overflow =>
    exact ⟨[], by rw [List.append_nil]; exact ⟨h.source, h.pos, h.line, h.lineStart⟩⟩

theorem remaining_of_next_none {l l' : Lexer} (h : l.next = (none, l')) : l.remaining = [] := by
  rw [remaining]
  split
  · rfl
  · rename_i h'
    rw [h] at h'
    cases h'

theorem remaining_of_next_some {l l' : Lexer} {r : Except LexError Located}
    (h : l.next = (some r, l')) : l.remaining = r :: l'.remaining := by
  rw [remaining]
  split
  · rename_i h'
    rw [h] at h'
    cases h'
  · rename_i h'
    rw [h] at h'
    cases h'
    rfl

theorem remaining_of_finished {l : Lexer} (hf : l.finished = true) : l.remaining = [] := by
  have hn : l.next = (none, l) := by rw [next, if_pos hf]
  exact remaining_of_next_none hn

/-- **The items of a lexer tile the text that is left.** -/
theorem tiled_remaining {l : Lexer} {before : List Char} (h : l.At before)
    (hf : l.finished = false) : Tiled before l.rest l.remaining := by
  induction l using remaining.induct generalizing before with
  | case1 l l' hnext =>
    rw [remaining_of_next_none hnext]
    cases nexts_of_next hnext with
    | finished hf' => simp [hf] at hf'
    | ending _ hgap => exact .ending hgap
  | case2 l r l' hnext ih =>
    rw [remaining_of_next_some hnext]
    cases nexts_of_next hnext with
    | @token gap rest x t _ hl hgap hx ht =>
      have htiled := ih (h.pass hl hgap hx ht) (by rwa [finished_pass])
      rw [h.rest_pass hl] at htiled
      rw [hl, h.line_gap hgap, h.column_gap hl hgap]
      exact .token hgap hx ht htiled
    | illegal _ hl hgap hc hx =>
      rw [remaining_of_finished rfl, hl, h.line_gap hgap, h.column_gap hl hgap]
      exact .illegal hgap hc hx
    | overflow _ hl hgap hx ht =>
      rw [remaining_of_finished rfl, hl, h.line_gap hgap, h.column_gap hl hgap]
      exact .overflow hgap hx ht

/-- The items of a text tile it. -/
theorem tiled_start (source : List Char) : Tiled [] source (start source).remaining := by
  have htiled := tiled_remaining (at_start source) rfl
  rwa [rest_start] at htiled

/-! ## Repeated calls -/

/-- The lexer behind the next `n` items. -/
def after (l : Lexer) : Nat → Lexer
  | 0 => l
  | n + 1 => l.next.2.after n

theorem At.after {l : Lexer} {before : List Char} (h : l.At before) (n : Nat) :
    ∃ more, (l.after n).At (before ++ more) := by
  induction n generalizing l before with
  | zero => exact ⟨[], by rwa [List.append_nil]⟩
  | succ n ih =>
    obtain ⟨more, hmore⟩ := h.of_nexts l.nexts_next
    obtain ⟨others, hothers⟩ := ih hmore
    exact ⟨more ++ others, by rwa [← List.append_assoc]⟩

end Lexer

/-! ## Bytes -/

namespace Lexer

end Lexer

/-- **All tokens of a text are valid.** -/
theorem valid_of_tokenize {source : String} {ts : List Located} (h : tokenize source = .ok ts) :
    ∀ t ∈ ts, t.token.Valid := by
  intro t ht
  rw [tokenize, mapM_id_eq_ok] at h
  have htiled : Tiled [] (Text.lower source.toList) (ts.map .ok) :=
    h ▸ Lexer.tiled_start _
  exact htiled.valid t (List.mem_map_of_mem ht)

end Eqasm
