import Eqasm.Proofs.Assembly.Declarations
import Eqasm.Proofs.Token.Lines

/-!
# What a line adds to a program

In a text without problems, a line with a statement adds the instructions of the statement, one
behind the other, behind those of the lines in front of it (`exists_emitted`). The first of them
carries the labels that wait for it.
-/

namespace Eqasm

/-- What a line declares is told apart from a body without colons. -/
theorem declarations_append_inj {names others : List String} {body rest : List Token}
    (hbody : .colon ∉ body) (hrest : .colon ∉ rest)
    (e : declarations names ++ body = declarations others ++ rest) :
    names = others ∧ body = rest := by
  induction names generalizing others with
  | nil =>
    cases others with
    | nil => exact ⟨rfl, e⟩
    | cons name others =>
      have hcolon : body = .ident name :: .colon :: (declarations others ++ rest) := e
      simp [hcolon] at hbody
  | cons name names ih =>
    cases others with
    | nil =>
      have hcolon : .ident name :: .colon :: (declarations names ++ body) = rest := e
      simp [← hcolon] at hrest
    | cons other others =>
      obtain ⟨hname, htail⟩ := List.cons.inj e
      obtain ⟨rfl, rfl⟩ := ih (List.cons.inj htail).2
      cases hname
      exact ⟨rfl, rfl⟩

/-- A line of a text without problems that holds a statement. -/
theorem Transcript.Reads.cons_statement {p last : Transcript} {n : Nat} {names : List String}
    {body : List Token} {operations : List Operation} {lines : List (List Token)}
    (h : p.Reads n ((declarations names ++ body) :: lines) last) (hlast : last.malformed = [])
    (hd : Denotes body operations) :
    (p.add n names (some operations)).Reads (n + 1) lines last := by
  obtain ⟨names', body', operations', e, -, hbody, hs⟩ := h.cons_inv hlast
  have hcolon : .colon ∉ body' := by
    rcases hbody with ⟨rfl, -⟩ | hbody
    · exact List.not_mem_nil
    · exact hbody.colon_notMem
  obtain ⟨rfl, rfl⟩ := declarations_append_inj hd.colon_notMem hcolon e
  rcases hbody with ⟨rfl, -⟩ | hbody
  · exact absurd rfl hd.ne_nil
  · rwa [hd.unique hbody]

/-- The instructions that lines add to an empty program, when these are read one by one. -/
def Adds (lines : List (List Char)) (instructions : List Instruction) : Prop :=
  ∃ tokens p, List.Forall₂ Lexes lines tokens ∧ Transcript.Reads {} 1 tokens p ∧
    p.instructions = instructions

theorem adds_nil : Adds [] [] :=
  ⟨[], {}, .nil, .nil _ _, rfl⟩

theorem Adds.unique {lines : List (List Char)} {instructions others : List Instruction}
    (h : Adds lines instructions) (h' : Adds lines others) : instructions = others := by
  obtain ⟨tokens, p, htokens, hp, rfl⟩ := h
  obtain ⟨tokens', q, htokens', hq, rfl⟩ := h'
  have hsame : tokens = tokens' := by
    clear hp hq
    induction htokens generalizing tokens' with
    | nil =>
      cases htokens'
      rfl
    | cons hline _ ih =>
      cases htokens' with
      | cons hline' hlines' => rw [hline.unique hline', ih _ hlines']
  rw [hp.unique (hsame ▸ hq)]

/-- A line of a text, read behind those in front of it, and what the text is assembled to. -/
theorem exists_reading {source : String} {a : Assembly} (ha : assemble source = .ok a)
    {before after : List (List Char)} {line : List Char}
    (hlines : (Text.lower source.toList).splitOn '\n' = before ++ line :: after)
    {tokens : List Token} (hline : Lexes line tokens) :
    ∃ earlier later q last problems, List.Forall₂ Lexes before earlier ∧
      Transcript.Reads {} 1 earlier q ∧ q.Reads (1 + before.length) (tokens :: later) last ∧
      a.instructions.toList = last.instructions ∧ problems.map (·.line) = last.malformed ∧
      a.diagnostics.toList = problems ++ last.pending.map fun (label, line) =>
        ⟨line, .danglingLabel label⟩ := by
  obtain ⟨ts, hts, -⟩ := assemble_eq_ok.1 ha
  obtain ⟨a', last, problems, ha', -, hreads, hinstructions, -, hproblems, hdiagnostics⟩ :=
    exists_transcript hts
  obtain rfl := Except.ok.inj (ha.symm.trans ha')
  obtain ⟨earlier, tokens', later, htokens, hbefore, hlexes⟩ := exists_lexed hts hlines
  obtain rfl := hlexes.unique hline
  rw [htokens] at hreads
  obtain ⟨q, hq, hothers⟩ := hreads.split
  rw [← hbefore.length_eq] at hothers
  exact ⟨earlier, later, q, last, problems, hbefore, hq, hothers, hinstructions, hproblems,
    hdiagnostics⟩

/-- The operations of a line come behind the instructions of the lines in front of it. -/
theorem Transcript.Reads.exists_emitted {p last : Transcript} {k n : Nat} {names : List String}
    {o : Operation} {others : List Operation} {lines : List (List Token)}
    (h : (p.add k names (some (o :: others))).Reads n lines last) :
    ∃ more, last.instructions = p.instructions ++
      ⟨p.pending.map (·.1) ++ names, o⟩ :: others.map (fun o => ⟨[], o⟩) ++ more := by
  obtain ⟨more, hmore⟩ := h.instructions_prefix
  refine ⟨more, ?_⟩
  rw [← hmore]
  simp [Transcript.add, Transcript.declare, Transcript.emit, Function.comp_def]

/-- **A line adds the instructions of its statement** behind those of the lines in front of it. -/
theorem exists_emitted {source : String} {a : Assembly} (ha : assemble source = .ok a)
    (hsucceeded : a.succeeded) {before after : List (List Char)} {line : List Char}
    (hlines : (Text.lower source.toList).splitOn '\n' = before ++ line :: after)
    {names : List String} {body : List Token} (hline : Lexes line (declarations names ++ body))
    {o : Operation} {others : List Operation} (hd : Denotes body (o :: others)) :
    ∃ earlier labels more, Adds before earlier ∧ names ⊆ labels ∧
      a.instructions.toList = earlier ++ ⟨labels, o⟩ :: others.map (fun o => ⟨[], o⟩) ++ more := by
  obtain ⟨earlier, later, q, last, problems, hbefore, hq, hothers, hinstructions, hproblems,
    hdiagnostics⟩ := exists_reading ha hlines hline
  have hmalformed : last.malformed = [] := by
    have hnone : a.diagnostics.toList = [] := by
      simpa [Assembly.succeeded] using hsucceeded
    rw [hnone] at hdiagnostics
    rw [← hproblems, (List.append_eq_nil_iff.1 hdiagnostics.symm).1, List.map_nil]
  obtain ⟨more, hmore⟩ := (hothers.cons_statement hmalformed hd).exists_emitted
  exact ⟨q.instructions, q.pending.map (·.1) ++ names, more, ⟨earlier, q, hbefore, hq, rfl⟩,
    List.subset_append_right _ _, hinstructions.trans hmore⟩

/-- What a text without malformed lines and without labels at its end is assembled to, from what is
written in it. -/
theorem exists_assembled_of_lexes {source : String} {tokens : List Token} {p : Transcript}
    (h : Lexes (Text.lower source.toList) tokens)
    (hreads : Transcript.Reads {} 1 (tokens.splitOn .newline) p) (hmalformed : p.malformed = [])
    (hpending : p.pending = []) :
    ∃ a, assemble source = .ok a ∧ a.succeeded ∧ a.instructions.toList = p.instructions := by
  obtain ⟨ts, hts, rfl⟩ := h.exists_tokenize
  obtain ⟨a, ha, hdiagnostics, hinstructions, -⟩ :=
    exists_assembled_of_reads hts rfl hreads hmalformed hpending
  exact ⟨a, ha, by simp [Assembly.succeeded, hdiagnostics], hinstructions⟩

theorem exists_assembled {source : String} {r : Row} {lines : List (List Token)} {p : Transcript}
    (hlower : Text.lower source.toList = r.text) (ha : r.Apart) (hv : r.All Token.Valid)
    (hlines : r.tokens.splitOn .newline = lines) (hreads : Transcript.Reads {} 1 lines p)
    (hmalformed : p.malformed = []) (hpending : p.pending = []) :
    ∃ a, assemble source = .ok a ∧ a.succeeded ∧ a.instructions.toList = p.instructions :=
  exists_assembled_of_lexes (hlower ▸ lexes_row ha hv) (hlines ▸ hreads) hmalformed hpending

end Eqasm
