import Eqasm.Proofs.Assembly.Lines
import Eqasm.Proofs.Instruction.Lowering
import Eqasm.Proofs.Statement.Rows

/-!
# Listings read back

The well-formed programs are those that texts are assembled to, and the listing of each is assembled
to this very program, with the label table that describes it (`listing_round_trip`).

A listing has one line for each instruction, which declares the labels of the instruction and holds
its operation (`lineForm_row`). So its transcript is the program (`Transcript.reads_rows`).
-/

namespace Eqasm

/-! ## Lines of a listing -/

theorem tokens_labelRow (labels : List String) :
    (Instruction.labelRow labels).tokens = declarations labels := by
  rw [Instruction.labelRow]
  induction labels with
  | nil => rfl
  | cons l labels ih => simpa [declarations] using ih

/-- The line of an instruction means its labels and its operation. -/
theorem lineForm_row {declared : List String} {i : Instruction} (h : i.WellFormed)
    (hnew : New declared i.labels) :
    LineForm declared (Row.tokens (Instruction.labelRow i.labels ++ i.operation.row)) i.labels
      (some [i.operation]) := by
  rw [Row.tokens_append, tokens_labelRow]
  exact .mk hnew (.statement (Operation.denotes_row h.operation))

theorem newline_notMem_row {i : Instruction} (h : i.WellFormed) :
    .newline ∉ Row.tokens (Instruction.labelRow i.labels ++ i.operation.row) := by
  intro ht
  rw [Row.tokens_append, List.mem_append] at ht
  rcases ht with ht | ht
  · exact (Instruction.inline_labelRow h.labels _ ht).2 rfl
  · exact (Operation.inline_row h.operation _ ht).2 rfl

/-- **The lines of a listing add its instructions.** -/
theorem Transcript.reads_rows {program : List Instruction} (h : ∀ i ∈ program, i.WellFormed)
    {p : Transcript} (hpending : p.pending = [])
    (hnew : New p.declared (program.flatMap (·.labels))) (n : Nat) :
    ∃ last, p.Reads n ((Row.tokens (program.flatMap Instruction.row)).splitOn .newline) last ∧
      last.instructions = p.instructions ++ program ∧ last.malformed = p.malformed ∧
      last.pending = [] := by
  induction program generalizing p n with
  | nil =>
    refine ⟨p, ?_, by simp, rfl, hpending⟩
    have hempty := Reads.cons (.mk (new_nil _) .empty) (.nil (p.add n [] (some [])) _)
    simpa [add, emit, declarations] using hempty
  | cons i program ih =>
    obtain ⟨hi, hprogram⟩ := List.forall_mem_cons.1 h
    rw [List.flatMap_cons, new_append] at hnew
    have hrow : Row.tokens ((i :: program).flatMap Instruction.row) =
        Row.tokens (Instruction.labelRow i.labels ++ i.operation.row) ++
          .newline :: Row.tokens (program.flatMap Instruction.row) := by
      simp [Instruction.row]
    obtain ⟨last, hreads, hinstructions, hmalformed, hlast⟩ :=
      @ih hprogram (p.add n i.labels (some [i.operation])) rfl hnew.2 (n + 1)
    refine ⟨last, ?_, ?_, hmalformed, hlast⟩
    · rw [hrow, List.splitOn_append_cons_self_of_not_mem (newline_notMem_row hi)]
      exact .cons (lineForm_row hi hnew.1) hreads
    · rw [hinstructions]
      simp [add, declare, emit, hpending, Function.comp_def]

/-! ## Programs -/

/-- The listing of a well-formed program is assembled to the program. -/
theorem assemble_listing {program : List Instruction} (h : WellFormed program) :
    ∃ a, assemble (listing program) = .ok a ∧ a.diagnostics = #[] ∧
      a.instructions.toList = program ∧ a.labels.Describes program := by
  obtain ⟨ts, hts, htokens⟩ := tokenize_listing h.instructions
  obtain ⟨p, hreads, rfl, hmalformed, hpending⟩ := @Transcript.reads_rows program h.instructions {}
    rfl ⟨h.labels_nodup, by simp⟩ 1
  exact exists_assembled_of_reads hts (by rw [htokens]) hreads hmalformed hpending

/-- The program that a text is assembled to is well-formed. -/
theorem wellFormed_of_assemble {source : String} {a : Assembly} (h : assemble source = .ok a) :
    WellFormed a.instructions.toList :=
  ⟨(sound_of_assemble h).instructions, (sound_of_assemble h).labels.labels_nodup⟩

/-- **Listings round-trip.** The programs of texts are the well-formed ones. The listing of each is
assembled without a problem to the same program, and a label is entered with the index of the
instruction that carries it. So the listing of an assembled text is assembled to what the text is
assembled to. -/
theorem listing_round_trip :
    (∀ program : List Instruction,
      (∃ source a, assemble source = .ok a ∧ a.succeeded ∧ a.instructions.toList = program) ↔
        WellFormed program) ∧
    (∀ program : List Instruction, WellFormed program →
      ∃ a, assemble (listing program) = .ok a ∧ a.diagnostics = #[] ∧
        a.instructions.toList = program ∧
        ∀ label k, a.labels.find? label = some k ↔
          ∃ i, program[k]? = some i ∧ label ∈ i.labels) ∧
    ∀ source a, assemble source = .ok a → a.succeeded →
      ∃ b, assemble (listing a.instructions.toList) = .ok b ∧ b.succeeded ∧
        b.instructions = a.instructions ∧ b.labels = a.labels := by
  refine ⟨fun program => ⟨?_, fun h => ?_⟩, fun program h => ?_, fun source a ha _ => ?_⟩
  · rintro ⟨source, a, ha, -, rfl⟩
    exact wellFormed_of_assemble ha
  · obtain ⟨a, ha, hdiagnostics, hinstructions, -⟩ := assemble_listing h
    exact ⟨listing program, a, ha, by simp [Assembly.succeeded, hdiagnostics], hinstructions⟩
  · obtain ⟨a, ha, hdiagnostics, hinstructions, hlabels⟩ := assemble_listing h
    exact ⟨a, ha, hdiagnostics, hinstructions, fun _ _ => hlabels.find?_eq_some⟩
  · obtain ⟨b, hb, hdiagnostics, hinstructions, hlabels⟩ :=
      assemble_listing (wellFormed_of_assemble ha)
    refine ⟨b, hb, by simp [Assembly.succeeded, hdiagnostics], ?_, ?_⟩
    · exact Array.toList_inj.1 hinstructions
    · exact hlabels.unique (sound_of_assemble ha).labels

/-- A program with a loop, a negative offset and a bundle. -/
theorem listing_round_trip_of_loop :
    ∃ a, assemble (listing [⟨["loop", "q_1.x"], .load .word 3 4 (-8)⟩,
        ⟨[], .bundle 2 [⟨"cz", .pair 7⟩, .qnop]⟩, ⟨[], .br (.relation .lt) "loop"⟩]) = .ok a ∧
      a.diagnostics = #[] ∧ a.labels.find? "q_1.x" = some 0 := by
  have hw : WellFormed [⟨["loop", "q_1.x"], .load .word 3 4 (-8)⟩,
      ⟨[], .bundle 2 [⟨"cz", .pair 7⟩, .qnop]⟩, ⟨[], .br (.relation .lt) "loop"⟩] := by
    decide +kernel
  obtain ⟨a, ha, hd, -, hlabels⟩ := listing_round_trip.2.1 _ hw
  exact ⟨a, ha, hd, (hlabels _ _).2 ⟨_, rfl, by simp⟩⟩

end Eqasm
