import Eqasm.Text.Lowercase

/-!
# Texts in lower case

A character is fixed if no context changes it (`Text.Fixed`). The characters of a text that is its
own lower-case form are fixed (`Text.fixed_of_lower`), so such a text stays as it is wherever it
stands in another one. Lowering makes no line ends (`Text.newline_notMem_lowerInContext`), and what
stands on other lines does not matter to it (`Text.splitOn_lower`).
-/

namespace Eqasm

namespace Text

/-- A character that is its own lower-case form in every context. -/
def Fixed (c : Char) : Prop :=
  ∀ before behind, lowerInContext before c behind = [c]

/-- The characters of a text in lower case are fixed. -/
theorem fixed_of_lowerFrom {before text : List Char} (h : lowerFrom before text = text) :
    ∀ c ∈ text, Fixed c := by
  induction text generalizing before with
  | nil => simp
  | cons c text ih =>
    rw [lowerFrom] at h
    have hsigma : c ≠ 'Σ' := by
      rintro rfl
      rw [lowerInContext, if_pos rfl] at h
      split at h
      · exact absurd (List.cons.inj h).1 (by decide)
      · exact absurd (List.cons.inj h).1 (by decide)
    have hdotted : c ≠ 'İ' := by
      rintro rfl
      rw [lowerInContext, if_neg hsigma, if_pos rfl] at h
      exact absurd (List.cons.inj h).1 (by decide)
    have hc : ∀ before behind, lowerInContext before c behind = [lowerChar c] := by
      intro before behind
      rw [lowerInContext, if_neg hsigma, if_neg hdotted]
    rw [hc, List.singleton_append] at h
    obtain ⟨hchar, htext⟩ := List.cons.inj h
    exact List.forall_mem_cons.2 ⟨fun before behind => by rw [hc, hchar], ih htext⟩

theorem fixed_of_lower {text : List Char} (h : lower text = text) : ∀ c ∈ text, Fixed c :=
  fixed_of_lowerFrom h

/-- A text that is lowered character by character in every context, and what stands behind it. -/
theorem lowerFrom_append_map {f : Char → Char} {text : List Char}
    (h : ∀ c ∈ text, ∀ before behind, lowerInContext before c behind = [f c])
    (before behind : List Char) :
    lowerFrom before (text ++ behind) =
      text.map f ++ lowerFrom (text.reverse ++ before) behind := by
  induction text generalizing before with
  | nil => rfl
  | cons c text ih =>
    obtain ⟨hc, htext⟩ := List.forall_mem_cons.1 h
    rw [List.cons_append, lowerFrom, hc, ih htext, List.reverse_cons, List.append_assoc]
    rfl

/-- Fixed characters stay as they are in front of any text. -/
theorem lowerFrom_append {text : List Char} (h : ∀ c ∈ text, Fixed c) (before behind : List Char) :
    lowerFrom before (text ++ behind) = text ++ lowerFrom (text.reverse ++ before) behind := by
  have hmap := lowerFrom_append_map (f := id) h before behind
  rwa [List.map_id] at hmap

/-- Fixed characters stay as they are behind any text. -/
theorem lowerFrom_of_fixed {text : List Char} (h : ∀ c ∈ text, Fixed c) (before : List Char) :
    lowerFrom before text = text := by
  have happend := lowerFrom_append h before []
  rwa [List.append_nil, lowerFrom, List.append_nil] at happend

/-! ## ASCII -/

/-- An ASCII character is lowered by itself. -/
theorem lowerInContext_of_ascii {c : Char} (h : c.toNat < 128) (before behind : List Char) :
    lowerInContext before c behind = [c.toLower] := by
  have hsigma : c ≠ 'Σ' := by
    rintro rfl
    exact absurd h (by decide)
  have hdotted : c ≠ 'İ' := by
    rintro rfl
    exact absurd h (by decide)
  rw [lowerInContext, if_neg hsigma, if_neg hdotted, lowerChar, if_pos h]

end Text

/-- The first text is ASCII and the second one its lower case. -/
structure Lowers (text lowered : List Char) : Prop where
  ascii : ∀ c ∈ text, c.toNat < 128
  map_toLower : text.map Char.toLower = lowered

namespace Lowers

@[simp] theorem nil : Lowers [] [] :=
  ⟨by simp, rfl⟩

theorem append {s t s' t' : List Char} (hs : Lowers s s') (ht : Lowers t t') :
    Lowers (s ++ t) (s' ++ t') := by
  refine ⟨?_, by rw [List.map_append, hs.map_toLower, ht.map_toLower]⟩
  intro c hc
  rcases List.mem_append.1 hc with h | h
  · exact hs.ascii c h
  · exact ht.ascii c h

@[simp] theorem cons_cons {c d : Char} {s t : List Char} :
    Lowers (c :: s) (d :: t) ↔ c.toNat < 128 ∧ c.toLower = d ∧ Lowers s t := by
  constructor
  · rintro ⟨ha, hm⟩
    simp only [List.map_cons, List.cons.injEq] at hm
    exact ⟨ha c (by simp), hm.1, fun e h => ha e (by simp [h]), hm.2⟩
  · rintro ⟨hc, rfl, hs⟩
    exact ⟨by simpa [hc] using hs.ascii, by simp [hs.map_toLower]⟩

/-- ASCII is lowered as it is without any context. -/
theorem lowerFrom_append {text lowered : List Char} (h : Lowers text lowered)
    (before behind : List Char) : Text.lowerFrom before (text ++ behind) =
      lowered ++ Text.lowerFrom (text.reverse ++ before) behind := by
  rw [← h.map_toLower]
  exact Text.lowerFrom_append_map
    (fun c hc => Text.lowerInContext_of_ascii (h.ascii c hc)) before behind

/-- Lowering by the rules of Unicode agrees on ASCII. -/
theorem lower_eq {text lowered : List Char} (h : Lowers text lowered) :
    Text.lower text = lowered := by
  have happend := h.lowerFrom_append [] []
  rwa [List.append_nil, Text.lowerFrom, List.append_nil] at happend

end Lowers

namespace Text

/-! ## Line ends -/

/-- The table maps no character to a line end. -/
theorem ofNat_ne_newline_of_covers {r : CaseRange} (hr : r ∈ lowerCaseRanges) {n : Nat}
    (h : r.covers n) : Char.ofNat (n + r.offset).toNat ≠ '\n' := by
  have hall : ∀ r ∈ lowerCaseRanges, 10 < r.first + r.offset := by decide +kernel
  have hfirst : r.first ≤ n := by
    simp only [CaseRange.covers, Bool.and_eq_true, decide_eq_true_eq] at h
    exact h.1.1
  have hlt : 10 < (n + r.offset).toNat := by
    have hrange := hall r hr
    omega
  intro e
  by_cases hvalid : (n + r.offset).toNat.isValidChar
  · rw [Char.ofNat, dif_pos hvalid] at e
    have hten : (n + r.offset).toNat = 10 := congrArg Char.toNat e
    omega
  · rw [Char.ofNat, dif_neg hvalid] at e
    exact absurd e (by decide)

/-- Only a line end is lowered to one. -/
theorem lowerChar_ne_newline {c : Char} (h : c ≠ '\n') : lowerChar c ≠ '\n' := by
  unfold lowerChar
  split
  · rename_i hascii
    have hall : ∀ n < 128, (Char.ofNat n).toLower = '\n' → Char.ofNat n = '\n' := by decide +kernel
    have hc := hall _ hascii
    rw [Char.ofNat_toNat] at hc
    exact fun e => h (hc e)
  · split
    · rename_i r hr
      have hcovers : r.covers c.toNat := by simpa using List.find?_some hr
      exact ofNat_ne_newline_of_covers (List.mem_of_find?_eq_some hr) hcovers
    · exact h

/-- Lowering makes no line ends. -/
theorem newline_notMem_lowerInContext {c : Char} (h : c ≠ '\n') (before behind : List Char) :
    '\n' ∉ lowerInContext before c behind := by
  unfold lowerInContext
  split
  · split <;> decide
  · split
    · decide
    · rw [List.mem_singleton]
      exact (lowerChar_ne_newline h).symm

/-- A text is lowered part by part, and no line ends are made. -/
theorem exists_lowerFrom_append (before text behind : List Char) :
    ∃ lowered, lowerFrom before (text ++ behind) =
        lowered ++ lowerFrom (text.reverse ++ before) behind ∧
      ('\n' ∉ text → '\n' ∉ lowered) := by
  induction text generalizing before with
  | nil => exact ⟨[], rfl, id⟩
  | cons c text ih =>
    obtain ⟨lowered, hlowered, hnewline⟩ := ih (c :: before)
    refine ⟨lowerInContext before c (text ++ behind) ++ lowered, ?_, fun h => ?_⟩
    · rw [List.cons_append, lowerFrom, hlowered, List.append_assoc, List.reverse_cons,
        List.append_assoc]
      rfl
    · rw [List.mem_cons, not_or] at h
      rw [List.mem_append, not_or]
      exact ⟨newline_notMem_lowerInContext (Ne.symm h.1) _ _, hnewline h.2⟩

theorem newline_notMem_lowerFrom {text : List Char} (h : '\n' ∉ text) (before : List Char) :
    '\n' ∉ lowerFrom before text := by
  obtain ⟨lowered, hlowered, hnewline⟩ := exists_lowerFrom_append before text []
  rw [lowerFrom, List.append_nil, List.append_nil] at hlowered
  rw [hlowered]
  exact hnewline h

/-- No letter is looked for behind the end of a line. -/
theorem letterFollows_line (line rest : List Char) :
    letterFollows (line ++ '\n' :: rest) = letterFollows line := by
  have hend : ('\n' :: rest).dropWhile (inRanges caseIgnorableRanges) = '\n' :: rest :=
    List.dropWhile_cons_of_neg (by decide +kernel)
  rw [letterFollows, letterFollows, List.dropWhile_append, hend]
  cases line.dropWhile (inRanges caseIgnorableRanges) with
  | nil => rfl
  | cons c others => rfl

/-- What stands in front of a line does not matter to it. -/
theorem lowerFrom_newline (before others text : List Char) :
    lowerFrom (before ++ '\n' :: others) text = lowerFrom before text := by
  induction text generalizing before with
  | nil => rfl
  | cons c text ih =>
    rw [lowerFrom, lowerFrom, ← List.cons_append, ih, lowerInContext, lowerInContext,
      letterFollows_line]

/-- What stands behind a line does not matter to it. -/
theorem lowerFrom_line (before line rest : List Char) :
    lowerFrom before (line ++ '\n' :: rest) = lowerFrom before line ++ '\n' :: lower rest := by
  induction line generalizing before with
  | nil => exact congrArg ('\n' :: ·) (lowerFrom_newline [] before rest)
  | cons c line ih =>
    rw [List.cons_append, lowerFrom, lowerFrom, ih, lowerInContext, lowerInContext,
      letterFollows_line, List.append_assoc]

/-- **A text is lowered line by line.** -/
theorem splitOn_lower (text : List Char) :
    (lower text).splitOn '\n' = (text.splitOn '\n').map lower := by
  -- the induction is on the length of the text; the first line is cut off
  induction hlength : text.length using Nat.strongRecOn generalizing text with
  | ind n ih =>
    by_cases hmem : '\n' ∈ text
    · obtain ⟨line, rest, rfl, hline⟩ := List.eq_append_cons_of_mem hmem
      have hlt : rest.length < n := by
        simp only [List.length_append, List.length_cons] at hlength
        omega
      rw [lower, lowerFrom_line,
        List.splitOn_append_cons_self_of_not_mem (newline_notMem_lowerFrom hline _),
        List.splitOn_append_cons_self_of_not_mem hline, ih _ hlt _ rfl]
      rfl
    · rw [List.splitOn_eq_singleton hmem, lower,
        List.splitOn_eq_singleton (newline_notMem_lowerFrom hmem [])]
      rfl

end Text

end Eqasm
