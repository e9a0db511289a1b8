import Eqasm.Proofs.Assembly.Recovery
import Eqasm.Proofs.Assembly.Transcript
import Eqasm.Proofs.Assembly.WellFormed
import Eqasm.Proofs.Token.Lines

/-!
# Lines are assembled one by one

What a text is assembled to is the transcript of its lines (`assemble_exact`): the lines between
the line ends, numbered from 1 and read from left to right, with one diagnostic for each malformed
line and one for each label that no instruction follows.

The assembler reads a text that is not cut into lines. It passes each line and then stands at the
start of the next one, so its loop adds one line after the other (`Assembler.run_eq_foldl`), and
each line adds to an assembly what it adds to the transcript (`Assembly.Matches.nextLine`).
-/

namespace Eqasm

/-! ## Numbers of lines -/

/-- The tokens have the numbers of their lines, and the first line has the number `n`. -/
def Numbered : Nat → List LineToken → Prop
  | _, [] => True
  | n, t :: ts => t.line = n ∧ Numbered (if t.token = .newline then n + 1 else n) ts

/-- The numbers of lines are counted by their ends. -/
theorem Tiled.numbered {before text : List Char} {ts : List Located}
    (h : Tiled before text (ts.map .ok)) : Numbered (lineBehind before) (ts.map (·.onLine)) := by
  induction ts generalizing before text with
  | nil => trivial
  | cons _ ts ih =>
    cases h with
    | @token _ gap _ x t _ hgap hx ht h =>
      refine ⟨lineBehind_append hgap.newline_notMem before, ?_⟩
      have hbehind : lineBehind (before ++ gap ++ x.chars) =
          if t = .newline then lineBehind before + 1 else lineBehind before := by
        split
        · rename_i hn
          subst hn
          rw [chars_of_newline hx ht, lineBehind_newline, lineBehind_append hgap.newline_notMem]
        · rename_i hn
          rw [lineBehind_append (newline_notMem_of_token hx ht hn),
            lineBehind_append hgap.newline_notMem]
      exact hbehind ▸ ih h

theorem numbered_of_tokenize {source : String} {ts : List Located} (h : tokenize source = .ok ts) :
    Numbered 1 (ts.map (·.onLine)) := by
  rw [tokenize, mapM_id_eq_ok] at h
  have htiled : Tiled [] (Text.lower source.toList) (ts.map .ok) := h ▸ Lexer.tiled_start _
  exact htiled.numbered

/-- All tokens of a line have its number, and the next line has the next number. -/
theorem Numbered.line {n : Nat} {line rest : List LineToken} (h : Numbered n (line ++ rest))
    (hline : OnOneLine line) : (∀ t ∈ line, t.line = n) ∧ Numbered n rest := by
  induction line with
  | nil => exact ⟨by simp, h⟩
  | cons t line ih =>
    obtain ⟨ht, hrest⟩ := h
    obtain ⟨hnewline, hline⟩ := List.forall_mem_cons.1 hline
    rw [if_neg hnewline] at hrest
    obtain ⟨hnumbers, hrest⟩ := ih hrest hline
    exact ⟨List.forall_mem_cons.2 ⟨ht, hnumbers⟩, hrest⟩

/-- Cuts tokens behind each line end. -/
def cutLines : List LineToken → List (List LineToken)
  | [] => []
  | t :: ts =>
    if t.token = .newline then [t] :: cutLines ts
    else match cutLines ts with
      | [] => [[t]]
      | l :: ls => (t :: l) :: ls

/-- A line is cut off behind its end. -/
theorem cutLines_line {line : List LineToken} {t : LineToken} (hline : OnOneLine line)
    (ht : t.token = .newline) (rest : List LineToken) :
    cutLines (line ++ t :: rest) = (line ++ [t]) :: cutLines rest := by
  induction line with
  | nil => simp [cutLines, ht]
  | cons u line ih =>
    obtain ⟨hu, hline⟩ := List.forall_mem_cons.1 hline
    rw [List.cons_append, cutLines, if_neg hu, ih hline]
    rfl

/-- The last line may have no end. -/
theorem cutLines_lastLine {t : LineToken} {line : List LineToken} (hline : OnOneLine (t :: line)) :
    cutLines (t :: line) = [t :: line] := by
  induction line generalizing t with
  | nil => simp [cutLines, hline t]
  | cons u line ih =>
    obtain ⟨ht, hline⟩ := List.forall_mem_cons.1 hline
    rw [cutLines, if_neg ht, ih hline]

/-- Tokens that consist of lines one after the other, the first of which has the number `n`. -/
inductive Cut : Nat → List LineToken → Prop
  | nil (n : Nat) : Cut n []
  | last {n : Nat} {line : List LineToken} (hne : line ≠ []) (hline : OnOneLine line)
    (hn : ∀ t ∈ line, t.line = n) : Cut n line
  | line {n : Nat} {line rest : List LineToken} {t : LineToken} (hline : OnOneLine line)
    (ht : t.token = .newline) (hn : ∀ u ∈ line, u.line = n) (htn : t.line = n)
    (hrest : Cut (n + 1) rest) : Cut n (line ++ t :: rest)

theorem cut_of_numbered {n : Nat} {ts : List LineToken} (h : Numbered n ts) : Cut n ts := by
  -- the induction is on the number of tokens; the first line is cut off
  induction hlength : ts.length using Nat.strongRecOn generalizing n ts with
  | ind k ih =>
    obtain ⟨line, ⟨left, lastLine⟩, hline, he, hts⟩ := (Cursor.start ts).exists_line
    obtain rfl : ts = line ++ left := congrArg Cursor.left hts
    obtain ⟨hnumbers, hrest⟩ := h.line hline
    cases left with
    | nil =>
      rw [List.append_nil]
      by_cases hne : line = []
      · exact hne ▸ .nil n
      · exact .last hne hline hnumbers
    | cons t rest =>
      have ht : t.token = .newline := by simpa [Cursor.atLineEnd, Cursor.next?] using he
      obtain ⟨hnumber, hrest⟩ := hrest
      rw [if_pos ht] at hrest
      have hlt : rest.length < k := by
        simp only [List.length_append, List.length_cons] at hlength
        omega
      exact .line hline ht hnumbers hnumber (ih _ hlt hrest rfl)

/-! ## The loop of the assembler -/

/-- The start of a line with its end. -/
theorem Cursor.start_line (line : List LineToken) (t : LineToken) :
    start (line ++ [t]) = prepend ⟨[t], t.line⟩ line := by
  simp [start, prepend]

/-- The start of a line without an end. -/
theorem Cursor.start_lastLine {line : List LineToken} {k : Nat} (hne : line ≠ [])
    (hk : ∀ t ∈ line.getLast?, t.line = k) : start line = prepend ⟨[], k⟩ line := by
  have hlast := List.getLast?_eq_some_getLast hne
  simp [start, prepend, hlast, hk _ hlast]

/-- Assembles one line by itself. -/
def Assembly.addLine (a : Assembly) (line : List LineToken) : Assembly :=
  (Assembler.nextLine { made := a, cursor := .start line }).made

namespace Assembler

theorem run_of_nil (a : Assembly) (k : Nat) : run ⟨a, ⟨[], k⟩⟩ = a.finish := by
  rw [run, dif_pos rfl]

theorem run_of_ne {p : Assembler} (h : p.cursor.left ≠ []) : run p = run p.nextLine := by
  rw [run, dif_neg h]

section

variable {a b : Assembly} {line : List LineToken} {k : Nat}

/-- A line with its end is added by itself as it is in front of other lines. -/
theorem Passes.addLine_line {t : LineToken} {rest : List LineToken}
    (h : Passes a line ⟨t :: rest, k⟩ b) (hline : OnOneLine line) (ht : t.token = .newline) :
    a.addLine (line ++ [t]) = b := by
  have hend : Cursor.atLineEnd ⟨t :: rest, k⟩ := by simp [Cursor.atLineEnd, Cursor.next?, ht]
  have halike : Cursor.Alike ⟨[t], t.line⟩ ⟨t :: rest, k⟩ := ⟨rfl, rfl⟩
  rw [Assembly.addLine, Cursor.start_line, h.nextLine_eq hline hend halike]

/-- The last line may have no end. -/
theorem Passes.addLine_lastLine (h : Passes a line ⟨[], k⟩ b) (hline : OnOneLine line)
    (hne : line ≠ []) (hk : ∀ t ∈ line.getLast?, t.line = k) : a.addLine line = b := by
  rw [Assembly.addLine, Cursor.start_lastLine hne hk, h.nextLine_eq hline rfl (.refl _)]

end

/-- **The loop adds one line after the other**, though the text is not cut. -/
theorem run_eq_foldl {n : Nat} {ts : List LineToken} (hc : Cut n ts) {k : Nat}
    (hk : ∀ t ∈ ts.getLast?, t.line = k) (a : Assembly) :
    run ⟨a, ⟨ts, k⟩⟩ = ((cutLines ts).foldl Assembly.addLine a).finish := by
  induction hc generalizing a with
  | nil => exact run_of_nil a k
  | @last n line hne hline hn =>
    have hprepend : (⟨line, k⟩ : Cursor) = Cursor.prepend ⟨[], k⟩ line := by
      simp [Cursor.prepend]
    obtain ⟨b, hb⟩ := exists_passes hline (rfl : Cursor.atLineEnd ⟨[], k⟩) a
    have hcut : cutLines line = [line] := by
      obtain ⟨t, rest, rfl⟩ := List.exists_cons_of_ne_nil hne
      exact cutLines_lastLine hline
    rw [run_of_ne hne, hprepend, hb.nextLine_eq hline rfl (.refl _), hcut, List.foldl_cons,
      hb.addLine_lastLine hline hne hk]
    exact run_of_nil b k
  | @line n line rest t hline ht _ _ _ ih =>
    have hend : Cursor.atLineEnd ⟨t :: rest, k⟩ := by simp [Cursor.atLineEnd, Cursor.next?, ht]
    have hrest : ∀ u ∈ rest.getLast?, u.line = k := by
      intro u hu
      refine hk u ?_
      simp_all [List.getLast?_append, List.getLast?_cons]
    have hprepend : (⟨line ++ t :: rest, k⟩ : Cursor) = Cursor.prepend ⟨t :: rest, k⟩ line := rfl
    obtain ⟨b, hb⟩ := exists_passes hline hend a
    rw [run_of_ne (by simp), hprepend, hb.nextLine_eq hline hend (.refl _), cutLines_line hline ht,
      List.foldl_cons, hb.addLine_line hline ht]
    exact ih hrest b

end Assembler

/-- What tokens are assembled to, line by line. -/
theorem assembleTokens_eq {ts : List Located} (h : Numbered 1 (ts.map (·.onLine))) :
    assembleTokens ts = ((cutLines (ts.map (·.onLine))).foldl Assembly.addLine {}).finish := by
  refine Assembler.run_eq_foldl (cut_of_numbered h) (fun t ht => ?_) {}
  rw [Option.mem_def] at ht
  simp [ht]

/-! ## What a line adds -/

namespace Assembler

variable {a : Assembly} {c : Cursor} {name : String}

theorem nextLine_of_none (h : c.label? = none) : nextLine ⟨a, c⟩ =
    match readBody c with
    | (d, .ok none) => ⟨a, d⟩
    | (d, .ok (some s)) => ⟨a.emit s.expand, d⟩
    | (d, .error problem) => ⟨a.report problem, d.skipLine⟩ := by
  rw [nextLine, line_of_labels (declareLabels_of_none h)]
  rcases readBody c with ⟨d, problem | _ | s⟩ <;> rfl

theorem nextLine_of_declared (h : c.label? = some name) (hname : a.declares name) :
    nextLine ⟨a, c⟩ = ⟨a.report ⟨c.line, .duplicateLabel name⟩, c.skipLine⟩ := by
  have hline : line ⟨a, c⟩ = (⟨a, c⟩, .error ⟨c.line, .duplicateLabel name⟩) :=
    Work.bind_of_error (declareLabels_of_declared h hname)
  rw [nextLine, hline]

theorem nextLine_of_new (h : c.label? = some name) (hname : ¬ a.declares name) :
    nextLine ⟨a, c⟩ = nextLine ⟨a.declare name c.line, c.advance.advance⟩ := by
  have hline : line ⟨a, c⟩ = line ⟨a.declare name c.line, c.advance.advance⟩ := by
    simp only [line, bind, declareLabels_of_new h hname]
  rw [nextLine, hline, ← nextLine]

end Assembler

namespace Assembly

/-- An assembly that has come as far as a transcript. -/
structure Matches (a : Assembly) (p : Transcript) : Prop where
  sound : a.Sound
  instructions : a.instructions.toList = p.instructions
  pending : a.pending = p.pending
  declared : ∀ label, label ∈ p.declared ↔
    label ∈ a.instructions.toList.flatMap (·.labels) ∨ label ∈ a.pending.map Prod.fst
  /-- There is one diagnostic for each malformed line. -/
  malformed : a.diagnostics.toList.map (·.line) = p.malformed

theorem matches_empty : Matches {} {} :=
  ⟨sound_empty, rfl, rfl, by simp, rfl⟩

variable {a : Assembly} {p : Transcript}

theorem Matches.declares_iff (h : a.Matches p) {label : String} :
    a.declares label ↔ label ∈ p.declared := by
  rw [h.sound.declares_iff, h.declared]

/-- Problems are noted for malformed lines. -/
theorem Matches.report (h : a.Matches p) (d : Diagnostic) :
    (a.report d).Matches { p with malformed := p.malformed ++ [d.line] } :=
  ⟨h.sound.report d, h.instructions, h.pending, h.declared, by simp [Assembly.report, h.malformed]⟩

theorem Matches.declare (h : a.Matches p) {name : String} (hn : IsName name)
    (hnew : name ∉ p.declared) (line : Nat) :
    (a.declare name line).Matches (p.declare line [name]) := by
  refine ⟨h.sound.declare hn (fun hd => hnew (h.declares_iff.1 hd)) line, h.instructions, ?_,
    fun label => ?_, h.malformed⟩
  · simp [Assembly.declare, Transcript.declare, h.pending]
  · simp [Assembly.declare, Transcript.declare, h.declared, or_assoc]

theorem Matches.emit (h : a.Matches p) {operations : List Operation} (hne : operations ≠ [])
    (hw : ∀ o ∈ operations, o.WellFormed) : (a.emit operations).Matches (p.emit operations) := by
  have hsound := h.sound.emit hne hw
  cases operations with
  | nil => exact absurd rfl hne
  | cons o rest =>
    refine ⟨hsound, ?_, rfl, fun label => ?_, h.malformed⟩
    · simp [Assembly.emit, Assembly.label, Transcript.emit, h.instructions, h.pending]
    · have hrest : (rest.map fun o => (⟨[], o⟩ : Instruction)).flatMap (·.labels) = [] :=
        List.flatMap_eq_nil_iff.2 (List.forall_mem_map.2 fun _ _ => rfl)
      simp [Assembly.emit, Assembly.label, Transcript.emit, h.declared, hrest]

variable {line : List LineToken} {e : Cursor} {n : Nat}

/-- The line of number `n` in a text, up to the place `e` where it ends. -/
structure IsLine (line : List LineToken) (e : Cursor) (n : Nat) : Prop where
  valid : ∀ t ∈ line, t.token.Valid
  onOneLine : OnOneLine line
  atLineEnd : e.atLineEnd
  number : ∀ t ∈ line, t.line = n
  end_number : e.line = n

theorem IsLine.of_suffix {rest : List LineToken} (h : IsLine line e n) (hs : rest <:+ line) :
    IsLine rest e n where
  valid t ht := h.valid t (hs.subset ht)
  onOneLine := h.onOneLine.of_suffix hs
  atLineEnd := h.atLineEnd
  number t ht := h.number t (hs.subset ht)
  end_number := h.end_number

theorem IsLine.line_eq (h : IsLine line e n) : (e.prepend line).line = n := by
  rcases e.line_prepend_mem line with hend | ⟨t, ht, htoken⟩
  · rw [hend, h.end_number]
  · rw [htoken, h.number t ht]

/-- A body that is neither empty nor a statement is refused in its line. -/
theorem IsLine.exists_problem (h : IsLine line e n) (hne : line ≠ [])
    (hd : ∀ operations, ¬ Denotes (line.map (·.token)) operations) :
    ∃ c d, readBody (e.prepend line) = (c, .error d) ∧ d.line = n := by
  rcases exists_readBody h.onOneLine h.atLineEnd with ⟨_ | s, hbody⟩ | ⟨left, d, -, hline, hbody⟩
  · obtain ⟨hend, -⟩ := readBody_eq_none.1 (hbody e (.refl e))
    exact absurd (Cursor.eq_nil_of_atLineEnd h.onOneLine hend) hne
  · have hread := Statement.read_iff_denotes h.onOneLine h.atLineEnd s.expand
    exact absurd (hread.2.1.1 ⟨s, _, hbody e (.refl e), rfl⟩) (hd _)
  · refine ⟨_, d, hbody e (.refl e), ?_⟩
    rcases hline with hline | ⟨t, ht, hline⟩
    · rw [hline, h.end_number]
    · rw [hline, h.number t ht]

/-- A body without labels adds its operations, or a problem if it is malformed. -/
theorem Matches.nextBody (h : a.Matches p) (hl : IsLine line e n)
    (hlabel : (e.prepend line).label? = none) :
    ∃ operations, BodyForm p.declared (line.map (·.token)) operations ∧
      (Assembler.nextLine ⟨a, e.prepend line⟩).made.Matches (p.add n [] operations) := by
  rw [Assembler.nextLine_of_none hlabel]
  by_cases hd : ∃ operations, Denotes (line.map (·.token)) operations
  · obtain ⟨operations, hd⟩ := hd
    have hread := Statement.read_iff_denotes hl.onOneLine hl.atLineEnd operations
    obtain ⟨s, c, hbody, rfl⟩ := hread.2.1.2 hd
    refine ⟨some s.expand, .statement hd, ?_⟩
    rw [hbody, Transcript.add, Transcript.declare_nil]
    exact h.emit s.expand_ne_nil (hd.wellFormed (List.forall_mem_map.2 hl.valid))
  · by_cases hne : line = []
    · subst hne
      have hbody := readBody_eq_none.2 ⟨hl.atLineEnd, rfl⟩
      refine ⟨some [], .empty, ?_⟩
      rw [Cursor.prepend_nil, hbody, Transcript.add, Transcript.declare_nil]
      exact h
    · have hd : ∀ operations, ¬ Denotes (line.map (·.token)) operations :=
        fun operations hdenotes => hd ⟨operations, hdenotes⟩
      obtain ⟨c, d, hbody, rfl⟩ := hl.exists_problem hne hd
      refine ⟨none, .malformed (by simpa using hne) (Cursor.ne_label_of_none hlabel) hd, ?_⟩
      rw [hbody, Transcript.add, Transcript.declare_nil]
      exact h.report d

/-- **A line adds what it means**, whatever stands behind its end. -/
theorem Matches.nextLine (h : a.Matches p) (hl : IsLine line e n) :
    ∃ names operations, LineForm p.declared (line.map (·.token)) names operations ∧
      (Assembler.nextLine ⟨a, e.prepend line⟩).made.Matches (p.add n names operations) := by
  -- the induction is on the number of tokens, as a label takes two
  induction hlength : line.length using Nat.strongRecOn generalizing line a p with
  | ind k ih =>
    cases hlabel : (e.prepend line).label? with
    | none =>
      obtain ⟨operations, hform, hmatches⟩ := h.nextBody hl hlabel
      refine ⟨[], operations, .mk (new_nil _) ?_, hmatches⟩
      rwa [List.append_nil]
    | some name =>
      obtain ⟨t, u, rest, rfl, ht, hu⟩ := Cursor.exists_of_label? hl.atLineEnd hlabel
      have htokens : (t :: u :: rest).map (·.token) =
          .ident name :: .colon :: rest.map (·.token) := by
        simp [ht, hu]
      rw [htokens]
      by_cases hname : name ∈ p.declared
      · refine ⟨[], none, .mk (new_nil _) ?_, ?_⟩
        · rw [List.append_nil]
          exact .duplicate hname _
        · rw [Assembler.nextLine_of_declared hlabel (h.declares_iff.2 hname), hl.line_eq,
            Transcript.add, Transcript.declare_nil]
          exact h.report _
      · have hlt : rest.length < k := by
          simp only [List.length_cons] at hlength
          omega
        have hvalid : IsName name := by simpa [ht] using hl.valid t (by simp)
        have hrest := hl.of_suffix ((List.suffix_cons u rest).trans (List.suffix_cons t _))
        obtain ⟨names, operations, hform, hmatches⟩ := ih _ hlt (h.declare hvalid hname n) hrest rfl
        refine ⟨name :: names, operations, hform.cons hname, ?_⟩
        rw [Transcript.add_cons, Assembler.nextLine_of_new hlabel fun hd =>
          hname (h.declares_iff.1 hd), hl.line_eq]
        exact hmatches

/-- Lines add what they mean, from left to right. -/
theorem Matches.foldl_addLine {ts : List LineToken} (hc : Cut n ts)
    (hv : ∀ t ∈ ts, t.token.Valid) (h : a.Matches p) :
    ∃ last, p.Reads n ((ts.map (·.token)).splitOn .newline) last ∧
      ((cutLines ts).foldl Assembly.addLine a).Matches last := by
  induction hc generalizing a p with
  | nil n =>
    have hempty := Transcript.Reads.cons (.mk (new_nil _) .empty) (.nil (p.add n [] (some [])) _)
    exact ⟨p, by simpa [Transcript.add, Transcript.emit, declarations] using hempty, h⟩
  | @last n line hne hline hn =>
    have hl : IsLine line ⟨[], n⟩ n := ⟨hv, hline, rfl, hn, rfl⟩
    obtain ⟨names, operations, hform, hmatches⟩ := h.nextLine hl
    have hstart := Cursor.start_lastLine hne fun t ht => hn t (List.mem_of_mem_getLast? ht)
    obtain ⟨t, rest, rfl⟩ := List.exists_cons_of_ne_nil hne
    rw [List.splitOn_eq_singleton (onOneLine_iff.1 hline), cutLines_lastLine hline]
    refine ⟨_, .cons hform (.nil _ _), ?_⟩
    rwa [List.foldl_cons, Assembly.addLine, hstart]
  | @line n line rest t hline ht hn htn _ ih =>
    obtain ⟨hvline, hvrest⟩ := List.forall_mem_append.1 hv
    have hend : Cursor.atLineEnd ⟨[t], t.line⟩ := by simp [Cursor.atLineEnd, Cursor.next?, ht]
    have hl : IsLine line ⟨[t], t.line⟩ n := ⟨hvline, hline, hend, hn, htn⟩
    obtain ⟨names, operations, hform, hmatches⟩ := h.nextLine hl
    rw [← Cursor.start_line] at hmatches
    obtain ⟨last, hreads, hlast⟩ := ih (List.forall_mem_cons.1 hvrest).2 hmatches
    have htokens : (line ++ t :: rest).map (·.token) =
        line.map (·.token) ++ .newline :: rest.map (·.token) := by
      simp [ht]
    rw [htokens, List.splitOn_append_cons_self_of_not_mem (onOneLine_iff.1 hline),
      cutLines_line hline ht]
    exact ⟨last, .cons hform hreads, hlast⟩

end Assembly

/-! ## Programs -/

/-- The transcript of the lines of a text, and what the text is assembled to. -/
theorem exists_transcript {source : String} {ts : List Located} (hts : tokenize source = .ok ts) :
    ∃ a p problems, assemble source = .ok a ∧
      a = ((cutLines (ts.map (·.onLine))).foldl Assembly.addLine {}).finish ∧
      Transcript.Reads {} 1 ((ts.map (·.token)).splitOn .newline) p ∧
      a.instructions.toList = p.instructions ∧ a.labels.Describes p.instructions ∧
      problems.map (·.line) = p.malformed ∧
      a.diagnostics.toList = problems ++ p.pending.map fun (label, line) =>
        ⟨line, .danglingLabel label⟩ := by
  have hnumbered := numbered_of_tokenize hts
  obtain ⟨p, hreads, hmatches⟩ := Assembly.matches_empty.foldl_addLine (cut_of_numbered hnumbered)
    (List.forall_mem_map.2 (valid_of_tokenize hts))
  rw [List.map_map] at hreads
  refine ⟨_, p, _, assemble_eq_ok.2 ⟨ts, hts, rfl⟩, assembleTokens_eq hnumbered, hreads, ?_, ?_,
    hmatches.malformed, ?_⟩
  · rw [assembleTokens_eq hnumbered, Assembly.finish_eq]
    exact hmatches.instructions
  · rw [assembleTokens_eq hnumbered, Assembly.finish_eq]
    exact hmatches.instructions ▸ hmatches.sound.labels
  · rw [assembleTokens_eq hnumbered, Assembly.finish_eq, hmatches.pending]
    simp

/-- What a text without malformed lines and without labels at its end is assembled to. -/
theorem exists_assembled_of_reads {source : String} {ts : List Located}
    {lines : List (List Token)} {p : Transcript} (hts : tokenize source = .ok ts)
    (hlines : (ts.map (·.token)).splitOn .newline = lines) (hreads : Transcript.Reads {} 1 lines p)
    (hmalformed : p.malformed = []) (hpending : p.pending = []) :
    ∃ a, assemble source = .ok a ∧ a.diagnostics = #[] ∧ a.instructions.toList = p.instructions ∧
      a.labels.Describes p.instructions := by
  obtain ⟨a, q, problems, ha, -, hq, hinstructions, hlabels, hproblems, hdiagnostics⟩ :=
    exists_transcript hts
  rw [hlines] at hq
  obtain rfl := hreads.unique hq
  have hnone : problems = [] := List.map_eq_nil_iff.1 (hproblems.trans hmalformed)
  rw [hnone, hpending] at hdiagnostics
  exact ⟨a, ha, Array.toList_eq_nil_iff.1 hdiagnostics, hinstructions, hlabels⟩

/-- **Lines are assembled one by one.** The lines of a text are what stands between its line ends.
The text is not cut when it is assembled, but the outcome is that of adding its lines one after the
other, each assembled by itself. It is the transcript of the lines, in which each line adds what it
means: the same instructions, with their labels in the label table, a diagnostic with its number for
each malformed line, and behind them one for each label that still waits, with the line of the
label. The meaning of a line is decided by its tokens and by the labels that are declared before it.

From the start of a line the assembler comes to its end, whatever is behind it, or it stops at a
problem in the line. The problem has the number of the line, and nothing is changed but the labels
that wait. In both cases it goes on at the start of the next line. -/
theorem assemble_exact :
    (∀ source ts, tokenize source = .ok ts → ∃ a p, assemble source = .ok a ∧
      a = ((cutLines (ts.map (·.onLine))).foldl Assembly.addLine {}).finish ∧
      (∀ last, Transcript.Reads {} 1 ((ts.map (·.token)).splitOn .newline) last ↔ last = p) ∧
      a.instructions.toList = p.instructions ∧
      (∀ label k, a.labels.find? label = some k ↔
        ∃ i, p.instructions[k]? = some i ∧ label ∈ i.labels) ∧
      ∃ problems, problems.map (·.line) = p.malformed ∧ a.diagnostics.toList =
        problems ++ p.pending.map fun (label, line) => ⟨line, .danglingLabel label⟩) ∧
    (∀ declared line, ∃ names operations, ∀ names' operations',
      LineForm declared line names' operations' ↔ names' = names ∧ operations' = operations) ∧
    ∀ (a : Assembly) line (e : Cursor), OnOneLine line → e.atLineEnd →
      ∃ b, Assembler.Passes a line e b ∧ ∀ e' : Cursor, e'.Alike e →
        Assembler.nextLine ⟨a, e'.prepend line⟩ = ⟨b, e'.advance⟩ := by
  refine ⟨fun source ts hts => ?_, fun declared line => ?_, fun a line e hline he => ?_⟩
  · obtain ⟨a, p, problems, ha, hfold, hreads, hinstructions, hlabels, hproblems, hdiagnostics⟩ :=
      exists_transcript hts
    exact ⟨a, p, ha, hfold, fun last => ⟨fun h => h.unique hreads, fun e => e ▸ hreads⟩,
      hinstructions, fun _ _ => hlabels.find?_eq_some, problems, hproblems, hdiagnostics⟩
  · obtain ⟨names, operations, h⟩ := exists_lineForm declared line
    refine ⟨names, operations, fun names' operations' => ⟨fun h' => h'.unique h, ?_⟩⟩
    rintro ⟨rfl, rfl⟩
    exact h
  · obtain ⟨b, hb⟩ := Assembler.exists_passes hline he a
    exact ⟨b, hb, fun e' he' => hb.nextLine_eq hline he he'⟩

/-- A malformed line with a label, a stop that the label names, and a label at the end. -/
theorem assemble_exact_of_lines :
    ∃ a, assemble "a: nop x\nStop\nc:" = .ok a ∧ a.instructions.toList = [⟨["a"], .stop⟩] ∧
      a.diagnostics.toList.map (·.line) = [1, 3] := by
  have hlower : Text.lower "a: nop x\nStop\nc:".toList = Row.text [some (.ident "a"), some .colon,
      none, some (.keyword .nop), none, some (.ident "x"), some .newline, some (.keyword .stop),
      some .newline, some (.ident "c"), some .colon] := by
    decide +kernel
  have hname : IsName "a" ∧ IsName "x" ∧ IsName "c" := by decide +kernel
  obtain ⟨ts, hts, htokens⟩ := tokenize_of_row hlower
    (by simp [Row.Apart, isBreak, Token.isSign]) (by simp [hname])
  obtain ⟨a, p, ha, -, hreads, hinstructions, -, problems, hproblems, hdiagnostics⟩ :=
    assemble_exact.1 _ ts hts
  have hmalformed : ∀ operations, ¬ Denotes [.keyword .nop, .ident "x"] operations := by
    intro operations h
    obtain ⟨s, hs, -⟩ :=
      @exists_read_line [⟨.keyword .nop, 1⟩, ⟨.ident "x", 1⟩] ⟨[], 1⟩ rfl operations h
    cases hs
  have hfirst : LineForm [] [.ident "a", .colon, .keyword .nop, .ident "x"] ["a"] none :=
    @LineForm.mk [] ["a"] _ _ ⟨by simp, by simp⟩ (.malformed (by simp) (by simp) hmalformed)
  have hsecond : LineForm ["a"] [.keyword .stop] [] (some [.stop]) :=
    @LineForm.mk ["a"] [] _ _ (new_nil _) (.statement .stop)
  have hthird : LineForm ["a"] [.ident "c", .colon] ["c"] (some []) :=
    @LineForm.mk ["a"] ["c"] _ _ ⟨by simp, by simp⟩ .empty
  rw [htokens] at hreads
  obtain rfl := (hreads _).1 (.cons hfirst (.cons hsecond (.cons hthird (.nil _ _))))
  refine ⟨a, ha, hinstructions, ?_⟩
  rw [hdiagnostics, List.map_append, hproblems]
  rfl

end Eqasm
