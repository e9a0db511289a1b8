import Eqasm.Assembly
import Eqasm.Proofs.Statement.Exactness

/-!
# Recovery from problems

What the assembler does on a line is decided by the tokens of the line and by how it ends
(`Assembler.exists_passes`). It comes to the end of the line, or stops at a problem inside of the
line. A problem has the line's number, and nothing is changed but that the labels in front of it
wait. Then the rest of the line is skipped, and the next line is reached with none of its tokens
taken (`Assembler.Passes.nextLine_eq`).
-/

namespace Eqasm

section

variable {line : List LineToken} {e : Cursor}

namespace Cursor

theorem Alike.atLineEnd_eq {c d : Cursor} (h : c.Alike d) : c.atLineEnd = d.atLineEnd := by
  rw [atLineEnd, h.next?_eq, atLineEnd]

/-- From any place in a line its rest is skipped, with its end. -/
theorem skipLine_prepend (hline : OnOneLine line) (he : e.atLineEnd) :
    (e.prepend line).skipLine = e.advance := by
  obtain ⟨left, lastLine⟩ := e
  have hleft : left.dropWhile (·.token ≠ .newline) = left := by
    cases left with
    | nil => rfl
    | cons t left =>
      have ht : t.token = .newline := by simpa [atLineEnd, next?] using he
      exact List.dropWhile_cons_of_neg (by simp [ht])
  rw [skipLine, prepend, List.dropWhile_append_of_pos fun t ht => decide_eq_true (hline t ht),
    hleft, advance]

/-- The label that a line starts with consists of tokens of the line. -/
theorem exists_of_label? (he : e.atLineEnd) {name : String}
    (h : (e.prepend line).label? = some name) :
    ∃ t u rest, line = t :: u :: rest ∧ t.token = .ident name ∧ u.token = .colon := by
  obtain ⟨hname, hcolon⟩ := label?_eq_some.1 h
  match line with
  | [] => rcases atLineEnd_iff.1 he with e | e <;> cases e.symm.trans hname
  | [t] => rcases atLineEnd_iff.1 he with e | e <;> cases e.symm.trans hcolon
  | t :: u :: rest => exact ⟨t, u, rest, rfl, Option.some.inj hname, Option.some.inj hcolon⟩

theorem label?_prepend (c : Cursor) {t u : LineToken} {name : String} (ht : t.token = .ident name)
    (hu : u.token = .colon) (rest : List LineToken) :
    (c.prepend (t :: u :: rest)).label? = some name :=
  label?_eq_some.2 ⟨by simp [ht], by simp [hu]⟩

theorem ne_label_of_none {c : Cursor} (h : (c.prepend line).label? = none) (name : String)
    (rest : List Token) : line.map (·.token) ≠ .ident name :: .colon :: rest := by
  intro hline
  obtain ⟨t, others, rfl, ht, hothers⟩ := List.map_eq_cons_iff.1 hline
  obtain ⟨u, rest, rfl, hu, -⟩ := List.map_eq_cons_iff.1 hothers
  cases h.symm.trans (label?_prepend c ht hu rest)

/-- Whether a line starts with a label is decided by the line. -/
theorem Alike.label?_eq_none {d : Cursor} (h : d.Alike e) (he : e.atLineEnd)
    (hnone : (e.prepend line).label? = none) : (d.prepend line).label? = none := by
  refine Option.eq_none_iff_forall_ne_some.2 fun name hname => ?_
  obtain ⟨t, u, rest, rfl, ht, hu⟩ := exists_of_label? (h.atLineEnd_eq ▸ he) hname
  rw [label?_prepend e ht hu rest] at hnone
  cases hnone

end Cursor

/-! ## Bodies -/

theorem readBody_of_not_atLineEnd {c : Cursor} (h : ¬ c.atLineEnd) :
    readBody c = (Statement.read.run >>= fun s => lineEnd >>= fun _ => pure (some s)) c :=
  if_neg h

/-- A body is read up to the end of its line, or to a problem in the line. -/
theorem exists_readBody (hline : OnOneLine line) (he : e.atLineEnd) :
    (∃ s?, ∀ e' : Cursor, e'.Alike e → readBody (e'.prepend line) = (e'.advance, .ok s?)) ∨
      ∃ left d, left <:+ line ∧ (d.line = e.line ∨ ∃ t ∈ line, d.line = t.line) ∧
        ∀ e' : Cursor, e'.Alike e → readBody (e'.prepend line) = (e'.prepend left, .error d) := by
  have hend {e' : Cursor} (he' : e'.Alike e) : lineEnd e' = (e'.advance, .ok ()) :=
    if_pos (he'.atLineEnd_eq ▸ he)
  cases hempty : line with
  | nil =>
    subst hempty
    exact .inl ⟨none, fun e' he' => if_pos (he'.atLineEnd_eq ▸ he)⟩
  | cons t rest =>
    have hstart (e' : Cursor) : ¬ (e'.prepend line).atLineEnd := by
      intro h
      rw [Cursor.eq_nil_of_atLineEnd hline h] at hempty
      cases hempty
    subst hempty
    obtain ⟨left, d | s, hleft⟩ := Statement.read.keeps _ e hline he
    · refine .inr ⟨left, d, hleft.suffix, hleft.number d rfl, fun e' he' => ?_⟩
      rw [readBody_of_not_atLineEnd (hstart e'), Work.bind_of_error (hleft.run e' he')]
    · cases hmore : left with
      | nil =>
        subst hmore
        refine .inl ⟨some s, fun e' he' => ?_⟩
        rw [readBody_of_not_atLineEnd (hstart e'), Work.bind_of_ok (hleft.run e' he')]
        exact Work.bind_of_ok (hend he')
      | cons u more =>
        subst hmore
        have hu : u ∈ t :: rest := hleft.suffix.subset List.mem_cons_self
        refine .inr ⟨u :: more, ⟨u.line, .unexpected .endOfLine (some u.token)⟩, hleft.suffix,
          .inr ⟨u, hu, rfl⟩, fun e' he' => ?_⟩
        have hproblem : lineEnd (e'.prepend (u :: more)) =
            (e'.prepend (u :: more), .error ⟨u.line, .unexpected .endOfLine (some u.token)⟩) :=
          if_neg fun h => absurd (Cursor.eq_nil_of_atLineEnd (hline.of_suffix hleft.suffix) h)
            (by simp)
        rw [readBody_of_not_atLineEnd (hstart e'), Work.bind_of_ok (hleft.run e' he')]
        exact Work.bind_of_error hproblem

namespace Assembler

/-! ## Labels -/

section

variable {a : Assembly} {c : Cursor} {name : String}

theorem declareLabels_of_none (h : c.label? = none) :
    declareLabels ⟨a, c⟩ = (⟨a, c⟩, .ok ()) := by
  rw [declareLabels.eq_def]
  split
  · rfl
  · rename_i h'
    cases h.symm.trans h'

theorem declareLabels_of_declared (h : c.label? = some name) (hname : a.declares name) :
    declareLabels ⟨a, c⟩ = (⟨a, c⟩, .error ⟨c.line, .duplicateLabel name⟩) := by
  rw [declareLabels.eq_def]
  split
  · rename_i h'
    cases h.symm.trans h'
  · rename_i h'
    cases h.symm.trans h'
    exact if_pos hname

theorem declareLabels_of_new (h : c.label? = some name) (hname : ¬ a.declares name) :
    declareLabels ⟨a, c⟩ = declareLabels ⟨a.declare name c.line, c.advance.advance⟩ := by
  rw [declareLabels.eq_def]
  split
  · rename_i h'
    cases h.symm.trans h'
  · rename_i h'
    cases h.symm.trans h'
    exact if_neg hname

end

/-- The labels of a line are declared up to its body, or to a problem in the line. -/
theorem exists_declareLabels (hline : OnOneLine line) (he : e.atLineEnd) (a : Assembly) :
    ∃ names left r, left <:+ line ∧ (∀ d, r = .error d → ∃ t ∈ line, d.line = t.line) ∧
      ∀ e' : Cursor, e'.Alike e → declareLabels ⟨a, e'.prepend line⟩ =
        (⟨{ a with pending := a.pending ++ names }, e'.prepend left⟩, r) := by
  -- the induction is on the number of tokens, as a label takes two
  induction hn : line.length using Nat.strongRecOn generalizing line a with
  | ind n ih =>
    have hsame : { a with pending := a.pending ++ [] } = a := by rw [List.append_nil]
    cases hlabel : (e.prepend line).label? with
    | none =>
      refine ⟨[], line, .ok (), List.suffix_rfl, fun _ h => (nomatch h), fun e' he' => ?_⟩
      rw [declareLabels_of_none (he'.label?_eq_none he hlabel), hsame]
    | some name =>
      obtain ⟨t, u, rest, rfl, ht, hu⟩ := Cursor.exists_of_label? he hlabel
      by_cases hname : a.declares name
      · refine ⟨[], t :: u :: rest, .error ⟨t.line, .duplicateLabel name⟩, List.suffix_rfl, ?_,
          fun e' _ => ?_⟩
        · rintro _ ⟨⟩
          exact ⟨t, List.mem_cons_self, rfl⟩
        · rw [declareLabels_of_declared (e'.label?_prepend ht hu rest) hname, hsame]
          rfl
      · have hlt : rest.length < n := by
          simp only [List.length_cons] at hn
          omega
        have hsuffix : rest <:+ t :: u :: rest :=
          (List.suffix_cons u rest).trans (List.suffix_cons t _)
        obtain ⟨names, left, r, hleft, hr, hrun⟩ :=
          ih _ hlt (hline.of_suffix hsuffix) (a.declare name t.line) rfl
        refine ⟨(name, t.line) :: names, left, r, hleft.trans hsuffix, fun d hd => ?_,
          fun e' he' => ?_⟩
        · obtain ⟨v, hv, hd⟩ := hr d hd
          exact ⟨v, hsuffix.subset hv, hd⟩
        · rw [declareLabels_of_new (e'.label?_prepend ht hu rest) hname]
          simpa [Assembly.declare] using hrun e' he'

/-! ## Lines -/

/-- The assembler passes a line up to its end `e`, whatever is behind this end, and makes `b` of
`a`. -/
inductive Passes (a : Assembly) (line : List LineToken) (e : Cursor) : Assembly → Prop
  | read {b : Assembly} (h : ∀ e' : Cursor, e'.Alike e →
      Assembler.line ⟨a, e'.prepend line⟩ = (⟨b, e'.advance⟩, .ok ())) : Passes a line e b
  /-- A problem of the line. Labels that are declared in front of it wait. -/
  | problem {names : List (String × Nat)} {left : List LineToken} {d : Diagnostic}
    (hleft : left <:+ line) (hd : d.line = e.line ∨ ∃ t ∈ line, d.line = t.line)
    (h : ∀ e' : Cursor, e'.Alike e → Assembler.line ⟨a, e'.prepend line⟩ =
      (⟨{ a with pending := a.pending ++ names }, e'.prepend left⟩, .error d)) :
    Passes a line e
      { a with pending := a.pending ++ names, diagnostics := a.diagnostics.push d }

/-- **A line is passed with what its tokens give.** -/
theorem exists_passes (hline : OnOneLine line) (he : e.atLineEnd) (a : Assembly) :
    ∃ b, Passes a line e b := by
  obtain ⟨names, left, d | _, hleft, hd, hlabels⟩ := exists_declareLabels hline he a
  · exact ⟨_, .problem hleft (.inr (hd d rfl)) fun e' he' => Work.bind_of_error (hlabels e' he')⟩
  · rcases exists_readBody (hline.of_suffix hleft) he with
      ⟨s?, hbody⟩ | ⟨left', d, hleft', hd, hbody⟩
    · cases s? with
      | none =>
        refine ⟨{ a with pending := a.pending ++ names }, .read fun e' he' => ?_⟩
        rw [line_of_labels (hlabels e' he'), hbody e' he']
      | some s =>
        refine ⟨Assembly.emit { a with pending := a.pending ++ names } s.expand,
          .read fun e' he' => ?_⟩
        rw [line_of_labels (hlabels e' he'), hbody e' he']
    · have hd : d.line = e.line ∨ ∃ t ∈ line, d.line = t.line :=
        hd.imp_right fun ⟨t, ht, hd⟩ => ⟨t, hleft.subset ht, hd⟩
      exact ⟨_, @Passes.problem a line e names left' d (hleft'.trans hleft) hd fun e' he' => by
        rw [line_of_labels (hlabels e' he'), hbody e' he']⟩

/-- **Behind a line the next one is read from its start.** -/
theorem Passes.nextLine_eq {a b : Assembly} (h : Passes a line e b) (hline : OnOneLine line)
    (he : e.atLineEnd) {e' : Cursor} (he' : e'.Alike e) :
    nextLine ⟨a, e'.prepend line⟩ = ⟨b, e'.advance⟩ := by
  cases h with
  | read h => rw [nextLine, h e' he']
  | problem hleft _ h =>
    rw [nextLine, h e' he']
    have hskip := Cursor.skipLine_prepend (hline.of_suffix hleft) (he'.atLineEnd_eq ▸ he)
    simp only [hskip]
    rfl

end Assembler

end

end Eqasm
