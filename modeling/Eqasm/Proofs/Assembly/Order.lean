import Eqasm.Proofs.Assembly.Lines

/-!
# The order of diagnostics

Diagnostics are noted at two times: for a malformed line when it is read, and for a label that no
instruction follows when all lines are read. Both parts come by increasing lines
(`Transcript.Reads.ordered`), but the lines of the second part may lie in front of those of the
first. The diagnostics as a whole are in order exactly if no line is malformed behind a label that
still waits at the end (`lines_of_diagnostics`).
-/

namespace Eqasm

namespace Transcript

/-- The lines of a transcript in front of line `n`: they are noted from first to last. -/
structure Ordered (p : Transcript) (n : Nat) : Prop where
  malformed : p.malformed.Pairwise (· < ·)
  malformed_lt : ∀ k ∈ p.malformed, k < n
  pending : (p.pending.map Prod.snd).Pairwise (· ≤ ·)
  pending_lt : ∀ k ∈ p.pending.map Prod.snd, k < n

theorem ordered_empty (n : Nat) : Ordered {} n :=
  ⟨.nil, by simp, .nil, by simp⟩

variable {p last : Transcript} {n : Nat}

theorem Ordered.later (h : p.Ordered n) : p.Ordered (n + 1) :=
  { h with
    malformed_lt := fun k hk => Nat.lt_succ_of_lt (h.malformed_lt k hk)
    pending_lt := fun k hk => Nat.lt_succ_of_lt (h.pending_lt k hk) }

/-- The labels of a line wait behind those of the lines in front of it. -/
theorem Ordered.declare (h : p.Ordered n) (names : List String) :
    (p.declare n names).Ordered (n + 1) := by
  have hnames : (names.map (·, n)).map Prod.snd = .replicate names.length n := by
    simp [List.eq_replicate_iff]
  refine ⟨h.malformed, h.later.malformed_lt, ?_, ?_⟩
  · rw [Transcript.declare, List.map_append, hnames, List.pairwise_append]
    refine ⟨h.pending, List.pairwise_replicate.2 (.inr (Nat.le_refl n)), fun k hk l hl => ?_⟩
    rw [List.eq_of_mem_replicate hl]
    exact Nat.le_of_lt (h.pending_lt k hk)
  · rw [Transcript.declare, List.map_append, hnames, List.forall_mem_append]
    refine ⟨h.later.pending_lt, fun k hk => ?_⟩
    rw [List.eq_of_mem_replicate hk]
    exact Nat.lt_succ_self n

theorem Ordered.emit (h : p.Ordered n) (operations : List Operation) :
    (p.emit operations).Ordered n := by
  cases operations with
  | nil => exact h
  | cons o rest => exact ⟨h.malformed, h.malformed_lt, .nil, by simp [Transcript.emit]⟩

/-- A malformed line is noted behind the malformed lines in front of it. -/
theorem Ordered.add (h : p.Ordered n) (names : List String)
    (operations : Option (List Operation)) : (p.add n names operations).Ordered (n + 1) := by
  cases operations with
  | some operations => exact (h.declare names).emit operations
  | none =>
    refine { h.declare names with malformed := ?_, malformed_lt := ?_ }
    · rw [Transcript.add, List.pairwise_append]
      refine ⟨h.malformed, List.pairwise_singleton _ _, fun k hk l hl => ?_⟩
      rw [List.mem_singleton.1 hl]
      exact h.malformed_lt k hk
    · rw [Transcript.add, List.forall_mem_append]
      exact ⟨h.later.malformed_lt, by simp⟩

/-- **Lines are noted from first to last.** -/
theorem Reads.ordered {lines : List (List Token)} (hs : p.Reads n lines last) (h : p.Ordered n) :
    last.Ordered (n + lines.length) := by
  induction hs with
  | nil => exact h
  | @cons _ _ n _ lines _ _ _ _ ih =>
    rw [List.length_cons, Nat.add_comm lines.length, ← Nat.add_assoc]
    exact ih (h.add _ _)

end Transcript

/-- An addition without its second operand is malformed, whatever labels are declared. -/
theorem lineForm_addition {declared : List String} :
    LineForm declared [.keyword (.alu .add), .register .general 1] [] none := by
  refine @LineForm.mk declared [] _ _ (new_nil _) (.malformed (by simp) (by simp) ?_)
  intro operations h
  obtain ⟨s, hs, -⟩ := @exists_read_line [⟨.keyword (.alu .add), 1⟩, ⟨.register .general 1, 1⟩]
    ⟨[], 1⟩ rfl operations h
  cases hs

/-- **The order of diagnostics.** First there is one diagnostic for each malformed line, by
increasing lines, and then one for each label that no instruction follows, by lines that do not
decrease. So the lines of all diagnostics do not decrease exactly if no line is malformed behind
a label that waits for an instruction up to the end. -/
theorem lines_of_diagnostics {source : String} {ts : List Located}
    (hts : tokenize source = .ok ts) :
    ∃ (a : Assembly) (p : Transcript) (problems waiting : List Diagnostic),
      assemble source = .ok a ∧
      Transcript.Reads {} 1 ((ts.map (·.token)).splitOn .newline) p ∧
      a.diagnostics.toList = problems ++ waiting ∧
      problems.map (·.line) = p.malformed ∧
      waiting = p.pending.map (fun (label, line) => ⟨line, .danglingLabel label⟩) ∧
      (problems.map (·.line)).Pairwise (· < ·) ∧ (waiting.map (·.line)).Pairwise (· ≤ ·) ∧
      ((a.diagnostics.toList.map (·.line)).Pairwise (· ≤ ·) ↔
        ∀ n ∈ p.malformed, ∀ w ∈ p.pending, n ≤ w.2) := by
  obtain ⟨a, p, problems, ha, -, hreads, -, -, hproblems, hdiagnostics⟩ := exists_transcript hts
  have hordered := hreads.ordered (Transcript.ordered_empty 1)
  have hwaiting : (p.pending.map fun (label, line) =>
      (⟨line, .danglingLabel label⟩ : Diagnostic)).map (·.line) = p.pending.map Prod.snd := by
    rw [List.map_map]
    rfl
  refine ⟨a, p, problems, _, ha, hreads, hdiagnostics, hproblems, rfl, ?_, ?_, ?_⟩
  · rw [hproblems]
    exact hordered.malformed
  · rw [hwaiting]
    exact hordered.pending
  · rw [hdiagnostics, List.map_append, hproblems, hwaiting, List.pairwise_append]
    simp only [List.forall_mem_map]
    exact ⟨fun h => h.2.2, fun h => ⟨hordered.malformed.imp Nat.le_of_lt, hordered.pending, h⟩⟩

/-- An addition without its second operand, in front of a label at the end. -/
theorem lines_of_diagnostics_of_addition :
    ∃ a, assemble "add r1\nb:" = .ok a ∧
      (a.diagnostics.toList.map (·.line)).Pairwise (· ≤ ·) := by
  have hlower : Text.lower "add r1\nb:".toList = Row.text [some (.keyword (.alu .add)), none,
      some (.register .general 1), some .newline, some (.ident "b"), some .colon] := by
    decide +kernel
  have hname : IsName "b" := by decide +kernel
  obtain ⟨ts, hts, htokens⟩ := tokenize_of_row hlower
    (by simp [Row.Apart, isBreak, Token.isSign]) (by simp [hname, Token.Valid, IsIndex])
  obtain ⟨a, p, -, -, ha, hreads, -, -, -, -, -, horder⟩ := lines_of_diagnostics hts
  have hsecond : LineForm [] [.ident "b", .colon] ["b"] (some []) :=
    @LineForm.mk [] ["b"] _ _ ⟨by simp, by simp⟩ .empty
  rw [htokens] at hreads
  obtain rfl := hreads.unique (.cons lineForm_addition (.cons hsecond (.nil _ _)))
  exact ⟨a, ha, horder.2 (by decide)⟩

/-- The label of the first line waits up to the end, and is reported behind the second line. -/
theorem lines_not_in_order :
    ∃ ts a, tokenize "a:\nadd r1" = .ok ts ∧ assemble "a:\nadd r1" = .ok a ∧
      a.diagnostics.toList.map (·.line) = [2, 1] ∧
      ¬ (a.diagnostics.toList.map (·.line)).Pairwise (· ≤ ·) := by
  have hlower : Text.lower "a:\nadd r1".toList = Row.text [some (.ident "a"), some .colon,
      some .newline, some (.keyword (.alu .add)), none, some (.register .general 1)] := by
    decide +kernel
  have hname : IsName "a" := by decide +kernel
  obtain ⟨ts, hts, htokens⟩ := tokenize_of_row hlower
    (by simp [Row.Apart, isBreak, Token.isSign]) (by simp [hname, Token.Valid, IsIndex])
  obtain ⟨a, p, problems, ha, -, hreads, -, -, hproblems, hdiagnostics⟩ := exists_transcript hts
  have hfirst : LineForm [] [.ident "a", .colon] ["a"] (some []) :=
    @LineForm.mk [] ["a"] _ _ ⟨by simp, by simp⟩ .empty
  rw [htokens] at hreads
  obtain rfl := hreads.unique (.cons hfirst (.cons lineForm_addition (.nil _ _)))
  have hlines : a.diagnostics.toList.map (·.line) = [2, 1] := by
    rw [hdiagnostics, List.map_append, hproblems]
    rfl
  exact ⟨ts, a, hts, ha, hlines, by rw [hlines]; decide⟩

end Eqasm
