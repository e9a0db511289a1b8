import Eqasm.Proofs.Assembly.Lines
import Eqasm.Proofs.Machine.Labels

/-!
# Declared labels

What a label names is found out twice: by the assembler, which enters the labels that wait when it
adds the next instruction, and by a machine that loads the instructions. Both come to the same
(`labels_of_assemble`), since the table of the assembler describes its instructions.

In a text without problems a declaration is followed by a statement, with nothing but other
declarations and line ends between them (`Transcript.Reads.exists_statement`). Its first instruction
is the next one that is added, and carries the label.
-/

namespace Eqasm

/-! ## Lines around a place -/

/-- Where a text is cut, its last line and the first line behind the cut are one. -/
theorem splitOn_append {α : Type} [BEq α] (s : α) (xs ys : List α) :
    ∃ init last head tail, xs.splitOn s = init ++ [last] ∧ ys.splitOn s = head :: tail ∧
      (xs ++ ys).splitOn s = init ++ (last ++ head) :: tail := by
  induction xs with
  | nil =>
    obtain ⟨head, tail, hys⟩ := List.exists_cons_of_ne_nil (List.splitOn_ne_nil s ys)
    exact ⟨[], [], head, tail, List.splitOn_nil s, hys, hys⟩
  | cons x xs ih =>
    obtain ⟨init, last, head, tail, hxs, hys, happend⟩ := ih
    rw [List.cons_append, List.splitOn_cons_eq_if_modifyHead, List.splitOn_cons_eq_if_modifyHead,
      hxs, happend]
    split
    · exact ⟨[] :: init, last, head, tail, rfl, hys, rfl⟩
    · cases init with
      | nil => exact ⟨[], x :: last, head, tail, rfl, hys, rfl⟩
      | cons line init => exact ⟨(x :: line) :: init, last, head, tail, rfl, hys, rfl⟩

/-- A declaration in a line without other colons is one of those that the line starts with. -/
theorem exists_of_declarations {names : List String} {body before after : List Token}
    {name : String} (hbody : .colon ∉ body)
    (e : before ++ .ident name :: .colon :: after = declarations names ++ body) :
    ∃ earlier later, before = declarations earlier ∧ names = earlier ++ name :: later ∧
      after = declarations later ++ body := by
  induction names generalizing before with
  | nil =>
    have hafter : before ++ .ident name :: .colon :: after = body := e
    exact absurd (hafter ▸ by simp) hbody
  | cons first names ih =>
    have hline : before ++ .ident name :: .colon :: after =
        .ident first :: .colon :: (declarations names ++ body) := e
    match before, hline with
    | [], hline =>
      obtain ⟨hname, hafter⟩ := List.cons.inj hline
      cases hname
      exact ⟨[], names, rfl, rfl, (List.cons.inj hafter).2⟩
    | [t], hline =>
      obtain ⟨-, hname⟩ := List.cons.inj hline
      cases (List.cons.inj hname).1
    | t :: u :: before, hline =>
      simp only [List.cons_append, List.cons.injEq] at hline
      obtain ⟨rfl, rfl, hrest⟩ := hline
      obtain ⟨earlier, later, rfl, rfl, rfl⟩ := ih hrest
      exact ⟨first :: earlier, later, rfl, rfl, rfl⟩

/-- No token but a line end is first. -/
def AtLineEnd (tokens : List Token) : Prop :=
  ∀ t ∈ tokens.head?, t = .newline

/-- Lines one after the other: the first line, and what stands behind it. -/
theorem exists_intercalate (line : List Token) (lines : List (List Token)) :
    ∃ rest, AtLineEnd rest ∧ [Token.newline].intercalate (line :: lines) = line ++ rest := by
  cases lines with
  | nil => exact ⟨[], nofun, by simp⟩
  | cons next lines =>
    refine ⟨.newline :: [Token.newline].intercalate (next :: lines), by simp [AtLineEnd], ?_⟩
    rw [List.intercalate_cons_cons, List.append_assoc, List.singleton_append]

/-- Declarations of labels and ends of lines. -/
inductive Idle : List Token → Prop
  | nil : Idle []
  | label (name : String) {tokens : List Token} (h : Idle tokens) :
    Idle (.ident name :: .colon :: tokens)
  | newline {tokens : List Token} (h : Idle tokens) : Idle (.newline :: tokens)

theorem Idle.declarations_append {tokens : List Token} (h : Idle tokens) (names : List String) :
    Idle (declarations names ++ tokens) := by
  induction names with
  | nil => exact h
  | cons name names ih => exact .label name ih

/-! ## Transcripts -/

namespace Transcript

variable {p last : Transcript} {n : Nat}

/-- Lines are read in two parts. -/
theorem Reads.split {lines others : List (List Token)} (h : p.Reads n (lines ++ others) last) :
    ∃ q, p.Reads n lines q ∧ q.Reads (n + lines.length) others last := by
  induction lines generalizing p n with
  | nil => exact ⟨p, .nil p n, h⟩
  | cons line lines ih =>
    cases h with
    | cons h hs =>
      obtain ⟨q, hq, hothers⟩ := ih hs
      refine ⟨q, .cons h hq, ?_⟩
      rwa [Nat.add_assoc, Nat.add_comm 1] at hothers

theorem malformed_emit (p : Transcript) (operations : List Operation) :
    (p.emit operations).malformed = p.malformed := by
  cases operations <;> rfl

/-- Lines that were malformed stay so. -/
theorem Reads.malformed_prefix {lines : List (List Token)} (h : p.Reads n lines last) :
    p.malformed <+: last.malformed := by
  induction h with
  | nil => exact List.prefix_rfl
  | @cons p _ n _ _ names operations _ _ ih =>
    refine List.IsPrefix.trans ?_ ih
    cases operations with
    | none => exact List.prefix_append _ _
    | some operations =>
      rw [add, malformed_emit]
      exact List.prefix_rfl

/-- Instructions are only added behind the others. -/
theorem Reads.instructions_prefix {lines : List (List Token)} (h : p.Reads n lines last) :
    p.instructions <+: last.instructions := by
  induction h with
  | nil => exact List.prefix_rfl
  | @cons p _ n _ _ names operations _ _ ih =>
    refine List.IsPrefix.trans ?_ ih
    match operations with
    | none | some [] => exact List.prefix_rfl
    | some (o :: rest) => exact List.prefix_append _ _

/-- A line of a text without problems declares labels and then holds nothing or a statement. -/
theorem Reads.cons_inv {line : List Token} {lines : List (List Token)}
    (h : p.Reads n (line :: lines) last) (hlast : last.malformed = []) :
    ∃ names body operations, line = declarations names ++ body ∧ New p.declared names ∧
      (body = [] ∧ operations = [] ∨ Denotes body operations) ∧
      (p.add n names (some operations)).Reads (n + 1) lines last := by
  cases h with
  | @cons _ _ _ _ _ names operations h hs =>
    obtain ⟨hnew, hbody⟩ := h
    cases hbody with
    | empty => exact ⟨names, [], [], rfl, hnew, .inl ⟨rfl, rfl⟩, hs⟩
    | statement h => exact ⟨names, _, _, rfl, hnew, .inr h, hs⟩
    | duplicate | malformed =>
      have hmalformed := hs.malformed_prefix
      rw [hlast, List.prefix_nil] at hmalformed
      simp [add] at hmalformed

/-- **The first statement behind a label that waits is carried by it.** -/
theorem Reads.exists_statement {name : String} {lines : List (List Token)}
    (h : p.Reads n lines last) (hmalformed : last.malformed = []) (hpending : last.pending = [])
    (hname : name ∈ p.pending.map Prod.fst) :
    ∃ skipped body rest labels o others more,
      [Token.newline].intercalate lines = skipped ++ (body ++ rest) ∧ Idle skipped ∧
      Denotes body (o :: others) ∧ AtLineEnd rest ∧ name ∈ labels ∧
      last.instructions =
        p.instructions ++ ⟨labels, o⟩ :: others.map (fun o => ⟨[], o⟩) ++ more := by
  induction lines generalizing p n with
  | nil =>
    cases h
    simp [hpending] at hname
  | cons line lines ih =>
    obtain ⟨names, body, operations, rfl, -, hbody, hs⟩ := h.cons_inv hmalformed
    have hwaits : name ∈ (p.declare n names).pending.map Prod.fst := by
      rw [declare, List.map_append]
      exact List.mem_append_left _ hname
    rcases hbody with ⟨rfl, rfl⟩ | hd
    · -- the labels of a line without a statement wait with the others
      cases lines with
      | nil =>
        cases hs
        have hnone : (p.declare n names).pending = [] := hpending
        rw [hnone] at hwaits
        cases hwaits
      | cons line lines =>
        obtain ⟨skipped, body, rest, labels, o, others, more, htokens, hskipped, hstatement⟩ :=
          ih hs hwaits
        refine ⟨declarations names ++ .newline :: skipped, body, rest, labels, o, others, more, ?_,
          hskipped.newline.declarations_append names, hstatement⟩
        rw [List.intercalate_cons_cons, htokens]
        simp only [List.append_assoc, List.nil_append, List.cons_append]
    · obtain ⟨o, others, rfl⟩ := List.exists_cons_of_ne_nil hd.operations_ne_nil
      obtain ⟨rest, hrest, htokens⟩ := exists_intercalate (declarations names ++ body) lines
      obtain ⟨more, hmore⟩ := hs.instructions_prefix
      refine ⟨declarations names, body, rest, _, o, others, more, ?_, ?_, hd, hrest, hwaits,
        hmore.symm⟩
      · rw [htokens, List.append_assoc]
      · simpa using Idle.nil.declarations_append names

theorem add_append (p : Transcript) (line : Nat) (names others : List String)
    (operations : Option (List Operation)) :
    p.add line (names ++ others) operations =
      (p.declare line names).add line others operations := by
  cases operations <;> simp [add, declare]

/-- Behind a declaration its label waits, and no instruction has been added for its line. -/
theorem Reads.exists_waiting {q : Transcript} {init tail : List (List Token)}
    {before after : List Token} {name : String}
    (h : p.Reads n (init ++ (before ++ .ident name :: .colon :: after) :: tail) last)
    (hbefore : p.Reads n (init ++ [before]) q) (hmalformed : last.malformed = []) :
    ∃ r : Transcript, r.Reads (n + init.length) (after :: tail) last ∧
      name ∈ r.pending.map Prod.fst ∧ r.instructions = q.instructions := by
  obtain ⟨s, hs, hline⟩ := h.split
  obtain ⟨_, hs', hpart⟩ := hbefore.split
  obtain rfl := hs.unique hs'
  obtain ⟨names, body, operations, e, hnew, hbody, hrest⟩ := hline.cons_inv hmalformed
  have hcolon : .colon ∉ body := by
    rcases hbody with ⟨rfl, -⟩ | hd
    · exact List.not_mem_nil
    · exact hd.colon_notMem
  obtain ⟨earlier, later, rfl, rfl, rfl⟩ := exists_of_declarations hcolon e
  rw [List.append_cons] at hnew hrest
  obtain ⟨hearlier, hlater⟩ := new_append.1 hnew
  have hq : q.instructions = s.instructions := by
    have hform : LineForm s.declared (declarations earlier ++ []) earlier (some []) :=
      .mk (new_append.1 hearlier).1 .empty
    rw [List.append_nil] at hform
    obtain rfl := hpart.unique (.cons hform (.nil _ _))
    rfl
  have hform : BodyForm (s.declared ++ (earlier ++ [name]) ++ later) body (some operations) := by
    rcases hbody with ⟨rfl, rfl⟩ | hd
    · exact .empty
    · exact .statement hd
  rw [add_append] at hrest
  refine ⟨_, .cons (.mk hlater hform) hrest, ?_, hq.symm⟩
  simp [declare]

end Transcript

/-! ## Programs -/

theorem Numbered.of_append {n : Nat} {ts others : List LineToken} (h : Numbered n (ts ++ others)) :
    Numbered n ts := by
  induction ts generalizing n with
  | nil => trivial
  | cons t ts ih => exact ⟨h.1, ih h.2⟩

/-- A program has no problems if no line has one and no label waits at the end. -/
theorem Assembly.succeeded_finish {a : Assembly} :
    a.finish.succeeded ↔ a.diagnostics = #[] ∧ a.pending = [] := by
  rw [succeeded, Array.isEmpty_iff, finish_eq]
  simp only [← Array.toList_eq_nil_iff, Array.toList_appendList, List.append_eq_nil_iff,
    List.map_eq_nil_iff]

/-- The transcript of the first lines of a text, the last of which may be cut. -/
theorem exists_transcript_of_append {source : String} {ts others : List Located}
    (hts : tokenize source = .ok (ts ++ others)) :
    ∃ p, Transcript.Reads {} 1 ((ts.map (·.token)).splitOn .newline) p ∧
      (assembleTokens ts).instructions.toList = p.instructions ∧
      ((assembleTokens ts).succeeded → p.malformed = [] ∧ p.pending = []) := by
  have hnumbered := numbered_of_tokenize hts
  rw [List.map_append] at hnumbered
  have hvalid : ∀ t ∈ ts.map (·.onLine), t.token.Valid :=
    List.forall_mem_map.2 fun t ht => valid_of_tokenize hts t (List.mem_append_left _ ht)
  obtain ⟨p, hreads, hmatches⟩ := Assembly.matches_empty.foldl_addLine
    (cut_of_numbered hnumbered.of_append) hvalid
  rw [List.map_map] at hreads
  rw [assembleTokens_eq hnumbered.of_append, Assembly.succeeded_finish]
  refine ⟨p, hreads, ?_, fun ⟨hdiagnostics, hpending⟩ => ⟨?_, hmatches.pending ▸ hpending⟩⟩
  · rw [Assembly.finish_eq, ← hmatches.instructions]
  · rw [← hmatches.malformed, hdiagnostics]
    rfl

/-- **A label is carried by the first instruction that is added behind its declaration.** -/
theorem exists_declared {source name : String} {before after : List Located} {d c : Located}
    (hts : tokenize source = .ok (before ++ d :: c :: after))
    (hsucceeded : (assembleTokens (before ++ d :: c :: after)).succeeded)
    (hd : d.token = .ident name) (hc : c.token = .colon) :
    ∃ skipped body rest labels o others more,
      after.map (·.token) = skipped ++ (body ++ rest) ∧ Idle skipped ∧
      Denotes body (o :: others) ∧ AtLineEnd rest ∧ name ∈ labels ∧
      (assembleTokens (before ++ d :: c :: after)).instructions.toList =
        (assembleTokens before).instructions.toList ++
          ⟨labels, o⟩ :: others.map (fun o => ⟨[], o⟩) ++ more := by
  have hall := hts
  rw [← List.append_nil (before ++ d :: c :: after)] at hall
  obtain ⟨last, hreads, hlast, hnone⟩ := exists_transcript_of_append hall
  obtain ⟨hmalformed, hpending⟩ := hnone hsucceeded
  obtain ⟨q, hbefore, hq, -⟩ := exists_transcript_of_append hts
  rw [List.map_append, List.map_cons, List.map_cons, hd, hc] at hreads
  -- the line of the declaration is cut behind it
  obtain ⟨init, line, head, tail, hinit, hbehind, hlines⟩ := splitOn_append .newline
    (before.map (·.token)) (.ident name :: .colon :: after.map (·.token))
  obtain ⟨next, later, hafter⟩ :=
    List.exists_cons_of_ne_nil (List.splitOn_ne_nil .newline (after.map (·.token)))
  have hhead : .ident name :: .colon :: next = head ∧ later = tail := by
    simpa [List.splitOn_cons_eq_if_modifyHead, hafter] using hbehind
  obtain ⟨rfl, rfl⟩ := hhead
  rw [hlines] at hreads
  rw [hinit] at hbefore
  obtain ⟨r, hr, hname, hinstructions⟩ := hreads.exists_waiting hbefore hmalformed
  obtain ⟨skipped, body, rest, labels, o, others, more, htokens, hskipped, hdenotes, hrest,
    hmem, hadded⟩ := hr.exists_statement hmalformed hpending hname
  rw [← hafter, List.intercalate_splitOn] at htokens
  rw [hinstructions, ← hq, ← hlast] at hadded
  exact ⟨skipped, body, rest, labels, o, others, more, htokens, hskipped, hdenotes, hrest, hmem,
    hadded⟩

/-- A program whose labels are in a table is not refused for them, and gets the same table. -/
theorem Machine.labels_of_upload {β : Type} {program : List Instruction} {labels : LabelTable}
    (h : labels.Describes program) (m : Machine β) :
    (∀ label m', upload program m ≠ (m', .error (.duplicateLabel label))) ∧
      ∀ m', upload program m = (m', .ok ()) → m'.labels = labels := by
  constructor
  · intro label m' hupload
    have hcheck := (Machine.upload_eq_error.1 hupload).2
    rw [Machine.check, LabelTable.ofProgram?_eq_ok.2 h] at hcheck
    split at hcheck
    · cases hcheck
    · dsimp only at hcheck
      split at hcheck
      · cases hcheck
      · cases hcheck
  · intro m' hupload
    obtain ⟨labels', hlabels, rfl⟩ := Machine.upload_eq_ok.1 hupload
    exact (Machine.check_eq_ok.1 hlabels).2.1.unique h

/-- **The assembler and the loader agree on labels.** Whatever problems a text has, a label is
entered with the place of the one instruction that carries it, so a machine never refuses the
program for a label that is carried twice and enters the same labels. If there are no problems,
every declaration in the text is entered with the place of the instruction that comes next: the
first one of the first statement behind it, which is added to what is assembled before. -/
theorem labels_of_assemble {source : String} {ts : List Located} (hts : tokenize source = .ok ts) :
    ∃ a, assemble source = .ok a ∧
      (∀ label k, a.labels.find? label = some k ↔
        ∃ i, a.instructions[k]? = some i ∧ label ∈ i.labels) ∧
      (a.instructions.toList.flatMap (·.labels)).Nodup ∧
      (∀ (β : Type) (m : Machine β),
        (∀ label m',
          Machine.upload a.instructions.toList m ≠ (m', .error (.duplicateLabel label))) ∧
        ∀ m', Machine.upload a.instructions.toList m = (m', .ok ()) →
          ∀ label, m'.labels.find? label = a.labels.find? label) ∧
      (a.succeeded → ∀ before d c after name, ts = before ++ d :: c :: after →
        d.token = .ident name → c.token = .colon →
        ∃ earlier skipped body rest labels o others more,
          earlier = (assembleTokens before).instructions.toList ∧
          after.map (·.token) = skipped ++ (body ++ rest) ∧ Idle skipped ∧
          Denotes body (o :: others) ∧ AtLineEnd rest ∧ name ∈ labels ∧
          a.instructions.toList =
            earlier ++ ⟨labels, o⟩ :: others.map (fun o => ⟨[], o⟩) ++ more ∧
          a.labels.find? name = some earlier.length) := by
  have ha : assemble source = .ok (assembleTokens ts) := assemble_eq_ok.2 ⟨ts, hts, rfl⟩
  have hsound := sound_of_assemble ha
  have hfind : ∀ label k, (assembleTokens ts).labels.find? label = some k ↔
      ∃ i, (assembleTokens ts).instructions[k]? = some i ∧ label ∈ i.labels := by
    intro label k
    rw [hsound.labels.find?_eq_some, Array.getElem?_toList]
  refine ⟨_, ha, hfind, hsound.labels.labels_nodup, fun β m => ?_, ?_⟩
  · obtain ⟨hrefused, hlabels⟩ := m.labels_of_upload hsound.labels
    exact ⟨hrefused, fun m' hm' label => by rw [hlabels m' hm']⟩
  · rintro hsucceeded before d c after name rfl hd hc
    obtain ⟨skipped, body, rest, labels, o, others, more, htokens, hskipped, hdenotes, hrest, hmem,
      hadded⟩ := exists_declared hts hsucceeded hd hc
    refine ⟨_, skipped, body, rest, labels, o, others, more, rfl, htokens, hskipped, hdenotes,
      hrest, hmem, hadded, (hfind _ _).2 ⟨⟨labels, o⟩, ?_, hmem⟩⟩
    rw [← Array.getElem?_toList, hadded]
    simp

/-- A label in front of an addition, which is expanded to two instructions. -/
theorem labels_of_assemble_of_addi :
    ∃ a, assemble "a: addi r1, r2, 3" = .ok a ∧ a.succeeded ∧ a.labels.find? "a" = some 0 := by
  have hlower : Text.lower "a: addi r1, r2, 3".toList = Row.text [some (.ident "a"), some .colon,
      none, some (.keyword .addi), none, some (.register .general 1), some .comma, none,
      some (.register .general 2), some .comma, none, some (.int 3)] := by
    decide +kernel
  have hname : IsName "a" := by decide +kernel
  obtain ⟨ts, hts, htokens⟩ := tokenize_of_row hlower
    (by simp [Row.Apart, isBreak, Token.isSign]) (by simp [hname, Token.Valid, IsIndex])
  have hline : LineForm [] (declarations ["a"] ++ [.keyword .addi, .register .general 1, .comma,
      .register .general 2, .comma, .int 3]) ["a"] (some [.ldi 1 3, .alu .add 1 2 1]) :=
    .mk ⟨by simp, by simp⟩ (.statement (.addi 1 2 ⟨by decide, by decide⟩))
  obtain ⟨a, ha, hdiagnostics, -⟩ := exists_assembled_of_reads hts (by rw [htokens]; rfl)
    (.cons hline (.nil _ _)) rfl rfl
  have hsucceeded : a.succeeded := by rw [Assembly.succeeded, hdiagnostics]; rfl
  obtain ⟨_, ha', -, -, -, hdeclared⟩ := labels_of_assemble hts
  obtain rfl := Except.ok.inj (ha.symm.trans ha')
  obtain ⟨d, others, rfl, hd, hothers⟩ := List.map_eq_cons_iff.1 htokens
  obtain ⟨c, after, rfl, hc, -⟩ := List.map_eq_cons_iff.1 hothers
  obtain ⟨earlier, -, -, -, -, -, -, -, hearlier, -, -, -, -, -, -, hfind⟩ :=
    hdeclared hsucceeded [] d c after "a" rfl hd hc
  have hnil : assembleTokens [] = {} := Assembler.run_of_nil {} 1
  refine ⟨a, ha, hsucceeded, ?_⟩
  rw [hfind, hearlier, hnil]
  rfl

end Eqasm
