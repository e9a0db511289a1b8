import Eqasm.Proofs.Assembly.Emission
import Eqasm.Proofs.Assembly.Order

/-!
# The problems of a line

What is reported for one line of a text that starts with no label. If the line holds a statement,
nothing is reported for it and its instructions are added, whatever problems other lines have
(`exists_added`). If it cannot be read, there is one report, which says why (`reported_of_line`).
-/

namespace Eqasm

/-! ## Later lines -/

namespace Transcript

/-- What the second transcript has noted more than the first one is for lines from `n` on. -/
structure Later (n : Nat) (p q : Transcript) : Prop where
  malformed : ∀ k ∈ q.malformed, k ∈ p.malformed ∨ n ≤ k
  pending : ∀ w ∈ q.pending, w ∈ p.pending ∨ n ≤ w.2

variable {p last : Transcript} {n : Nat}

theorem later_declare (p : Transcript) (n : Nat) (names : List String) :
    Later n p (p.declare n names) := by
  refine ⟨fun k hk => .inl hk, fun w hw => (List.mem_append.1 hw).imp_right fun hw => ?_⟩
  obtain ⟨name, -, rfl⟩ := List.mem_map.1 hw
  exact Nat.le_refl n

theorem Later.emit {q : Transcript} (h : Later n p q) (operations : List Operation) :
    Later n p (q.emit operations) := by
  cases operations with
  | nil => exact h
  | cons o others => exact ⟨h.malformed, by simp [Transcript.emit]⟩

theorem later_add (p : Transcript) (n : Nat) (names : List String)
    (operations : Option (List Operation)) : Later n p (p.add n names operations) := by
  have hdeclare := later_declare p n names
  cases operations with
  | some operations => exact hdeclare.emit operations
  | none =>
    refine ⟨fun k hk => (List.mem_append.1 hk).imp_right fun hk => ?_, hdeclare.pending⟩
    rw [List.mem_singleton.1 hk]

/-- What lines add is noted for these lines. -/
theorem Reads.later {lines : List (List Token)} (h : p.Reads n lines last) : Later n p last := by
  induction h with
  | nil => exact ⟨fun k hk => .inl hk, fun w hw => .inl hw⟩
  | @cons p _ n _ _ names operations _ _ ih =>
    have hadd := later_add p n names operations
    refine ⟨fun k hk => ?_, fun w hw => ?_⟩
    · exact (ih.malformed k hk).elim (hadd.malformed k) fun hle => .inr (Nat.le_of_succ_le hle)
    · exact (ih.pending w hw).elim (hadd.pending w) fun hle => .inr (Nat.le_of_succ_le hle)

/-- A line that starts with no label is read as its body. -/
theorem Reads.cons_body {body : List Token} {operations : Option (List Operation)}
    {lines : List (List Token)} (h : p.Reads n (body :: lines) last)
    (hbody : BodyForm p.declared body operations) :
    (p.add n [] operations).Reads (n + 1) lines last := by
  rw [← List.append_nil p.declared] at hbody
  cases h with
  | cons hline hs =>
    obtain ⟨rfl, rfl⟩ := hline.unique (.mk (new_nil _) hbody)
    exact hs

/-- No label of a line waits if the line declares none. -/
theorem Reads.pending_ne {body : List Token} {operations : Option (List Operation)}
    {lines : List (List Token)} (h : p.Reads n (body :: lines) last)
    (hbody : BodyForm p.declared body operations) (hp : p.Ordered n) :
    ∀ w ∈ last.pending, w.2 ≠ n := by
  have hadd : ∀ w ∈ (p.add n [] operations).pending, w ∈ p.pending := by
    intro w hw
    rcases operations with _ | _ | ⟨o, others⟩
    · rwa [add, declare_nil] at hw
    · rwa [add, declare_nil] at hw
    · cases hw
  rintro w hw rfl
  rcases (h.cons_body hbody).later.pending w hw with hw | hle
  · exact Nat.lt_irrefl _ (hp.pending_lt _ (List.mem_map_of_mem (hadd w hw)))
  · exact Nat.not_succ_le_self _ hle

end Transcript

/-! ## Lines in a text -/

/-- A line of a text is cut out of it with its number. -/
theorem Cut.exists_cut {n : Nat} {ts : List LineToken} (h : Cut n ts)
    {earlier later : List (List Token)} {tokens : List Token} (hne : tokens ≠ [])
    (hlines : (ts.map (·.token)).splitOn .newline = earlier ++ tokens :: later) :
    ∃ init l tail line, ∃ e : Cursor,
      cutLines ts = init ++ l :: tail ∧ Cursor.start l = e.prepend line ∧ OnOneLine line ∧
      e.atLineEnd ∧ line.map (·.token) = tokens ∧ ∀ t ∈ line, t.line = n + earlier.length := by
  induction h generalizing earlier with
  | nil n =>
    cases earlier with
    | nil => exact absurd (List.cons.inj hlines).1.symm hne
    | cons first earlier => simp at hlines
  | @last n line hnonempty hline hn =>
    rw [List.splitOn_eq_singleton (onOneLine_iff.1 hline)] at hlines
    cases earlier with
    | nil =>
      obtain ⟨rfl, -⟩ := List.cons.inj hlines
      have hstart := Cursor.start_lastLine hnonempty fun t ht => hn t (List.mem_of_mem_getLast? ht)
      obtain ⟨t, rest, rfl⟩ := List.exists_cons_of_ne_nil hnonempty
      exact ⟨[], t :: rest, [], t :: rest, ⟨[], n⟩, cutLines_lastLine hline, hstart, hline, rfl,
        rfl, hn⟩
    | cons first earlier => simp at hlines
  | @line n line rest t hline ht hn htn _ ih =>
    rw [List.map_append, List.map_cons, ht,
      List.splitOn_append_cons_self_of_not_mem (onOneLine_iff.1 hline)] at hlines
    rw [cutLines_line hline ht]
    cases earlier with
    | nil =>
      obtain ⟨rfl, -⟩ := List.cons.inj hlines
      have hend : Cursor.atLineEnd ⟨[t], t.line⟩ := by simp [Cursor.atLineEnd, Cursor.next?, ht]
      exact ⟨[], _, _, line, _, rfl, Cursor.start_line line t, hline, hend, rfl, hn⟩
    | cons _ earlier =>
      obtain ⟨-, hrest⟩ := List.cons.inj hlines
      obtain ⟨init, l, tail, line, e, hcut, hstart, hbody⟩ := ih hrest
      have hnumber : n + 1 + earlier.length = n + (earlier.length + 1) := by omega
      rw [hcut, List.length_cons, ← hnumber]
      exact ⟨_ :: init, l, tail, line, e, rfl, hstart, hbody⟩

namespace Assembler

theorem diagnostics_declareLabels {p q : Assembler} {r : Except Diagnostic Unit}
    (h : declareLabels p = (q, r)) : q.made.diagnostics = p.made.diagnostics := by
  fun_induction declareLabels p with
  | case1 | case2 =>
    cases h
    rfl
  | case3 p name _ _ ih => exact ih h

theorem ReadsLine.diagnostics_eq {p q : Assembler} {r : Except Diagnostic Unit}
    (h : ReadsLine p q r) : q.made.diagnostics = p.made.diagnostics := by
  cases h with
  | duplicate h => exact diagnostics_declareLabels h
  | malformed h | empty h | statement h =>
    have hlabels := diagnostics_declareLabels h
    exact hlabels

end Assembler

namespace Assembly

/-- Reports are only added behind the others. -/
theorem diagnostics_addLine (a : Assembly) (line : List LineToken) :
    a.diagnostics.toList <+: (a.addLine line).diagnostics.toList := by
  rw [addLine, Assembler.nextLine]
  split <;> rename_i h
  · exact (Assembler.readsLine_of_line h).diagnostics_eq ▸ List.prefix_rfl
  · have hdiagnostics := (Assembler.readsLine_of_line h).diagnostics_eq
    rw [report, Array.toList_push, hdiagnostics]
    exact List.prefix_append _ _

theorem diagnostics_foldl (lines : List (List LineToken)) (a : Assembly) :
    a.diagnostics.toList <+: (lines.foldl addLine a).diagnostics.toList := by
  induction lines generalizing a with
  | nil => exact List.prefix_rfl
  | cons l lines ih => exact (a.diagnostics_addLine l).trans (ih _)

end Assembly

/-- Of reports by increasing lines, one is the only one for its line. -/
theorem filter_line_eq {problems : List Diagnostic} {d : Diagnostic}
    (h : (problems.map (·.line)).Pairwise (· < ·)) (hd : d ∈ problems) :
    problems.filter (·.line = d.line) = [d] := by
  induction problems with
  | nil => cases hd
  | cons first problems ih =>
    obtain ⟨hfirst, hrest⟩ := List.pairwise_cons.1 h
    rcases List.mem_cons.1 hd with rfl | hd
    · have hnone : problems.filter (·.line = d.line) = [] := by
        refine List.filter_eq_nil_iff.2 fun e he => ?_
        have hlt : d.line < e.line := hfirst _ (List.mem_map_of_mem he)
        simpa using Nat.ne_of_gt hlt
      rw [List.filter_cons_of_pos (by simp), hnone]
    · have hlt : first.line < d.line := hfirst _ (List.mem_map_of_mem hd)
      rw [List.filter_cons_of_neg (by simpa using Nat.ne_of_lt hlt), ih hrest hd]

section

variable {source : String} {a : Assembly} (ha : assemble source = .ok a)
  {before after : List (List Char)} {line : List Char}
  (hlines : (Text.lower source.toList).splitOn '\n' = before ++ line :: after)
  {body : List Token} (hline : Lexes line body)
include ha hlines hline

/-- A line that starts with no label, read behind those in front of it. What is reported for it is
among the reports for malformed lines. -/
theorem exists_body {operations : Option (List Operation)}
    (hbody : ∀ declared, BodyForm declared body operations) :
    ∃ (q last : Transcript) (later : List (List Token)) (problems : List Diagnostic),
      Adds before q.instructions ∧ q.Ordered (before.length + 1) ∧
      (q.add (before.length + 1) [] operations).Reads (before.length + 2) later last ∧
      a.instructions.toList = last.instructions ∧ problems.map (·.line) = last.malformed ∧
      last.malformed.Pairwise (· < ·) ∧
      a.diagnostics.toList.filter (·.line = before.length + 1) =
        problems.filter (·.line = before.length + 1) := by
  obtain ⟨earlier, later, q, last, problems, hbefore, hq, hothers, hinstructions, hproblems,
    hdiagnostics⟩ := exists_reading ha hlines hline
  have hordered := hq.ordered (Transcript.ordered_empty 1)
  rw [← hbefore.length_eq, Nat.add_comm] at hordered
  rw [Nat.add_comm] at hothers
  refine ⟨q, last, later, problems, ⟨earlier, q, hbefore, hq, rfl⟩, hordered,
    hothers.cons_body (hbody _), hinstructions, hproblems, (hothers.ordered hordered).malformed,
    ?_⟩
  rw [hdiagnostics, List.filter_append, List.append_right_eq_self, List.filter_eq_nil_iff,
    List.forall_mem_map]
  intro w hw
  simpa using hothers.pending_ne (hbody _) hordered w hw

/-- **A line that holds a statement adds its instructions**, and nothing is reported for it, if it
starts with no label. -/
theorem exists_added {o : Operation} {others : List Operation} (hd : Denotes body (o :: others)) :
    (∃ earlier labels more, Adds before earlier ∧
      a.instructions.toList =
        earlier ++ ⟨labels, o⟩ :: others.map (fun o => ⟨[], o⟩) ++ more) ∧
    a.diagnostics.toList.filter (·.line = before.length + 1) = [] := by
  obtain ⟨q, last, later, problems, hadds, hordered, hreads, hinstructions, hproblems, -,
    hfilter⟩ := exists_body ha hlines hline fun _ => .statement hd
  constructor
  · obtain ⟨more, hmore⟩ := hreads.exists_emitted
    exact ⟨q.instructions, _, more, hadds, hinstructions.trans hmore⟩
  · rw [hfilter, List.filter_eq_nil_iff]
    intro d hd' hline
    have hmem : before.length + 1 ∈ last.malformed := by
      rw [← hproblems, ← of_decide_eq_true hline]
      exact List.mem_map_of_mem hd'
    rcases hreads.later.malformed _ hmem with hk | hle
    · exact Nat.lt_irrefl _ (hordered.malformed_lt _ hk)
    · exact Nat.not_succ_le_self _ hle

/-- The problem of a line that cannot be read is among the reports. -/
theorem mem_diagnostics_of_line {problem : Problem} (hne : body ≠ [])
    (hlabel : ∀ name rest, body ≠ .ident name :: .colon :: rest)
    (hread : ∀ line (e : Cursor), line.map (·.token) = body →
      (∀ t ∈ line, t.line = before.length + 1) → e.atLineEnd →
      ∃ c, readBody (e.prepend line) = (c, .error ⟨before.length + 1, problem⟩)) :
    ⟨before.length + 1, problem⟩ ∈ a.diagnostics.toList := by
  obtain ⟨ts, hts, rfl⟩ := assemble_eq_ok.1 ha
  obtain ⟨earlier, tokens, later, htokens, hbefore, hlexes⟩ := exists_lexed hts hlines
  obtain rfl := hlexes.unique hline
  have hnumbered := numbered_of_tokenize hts
  have hsplit : ((ts.map (·.onLine)).map (·.token)).splitOn .newline =
      earlier ++ tokens :: later := by
    rw [List.map_map]
    exact htokens
  obtain ⟨init, l, tail, line, e, hcut, hstart, -, hend, hbody, hn⟩ :=
    (cut_of_numbered hnumbered).exists_cut hne hsplit
  rw [← hbefore.length_eq, Nat.add_comm] at hn
  obtain ⟨c, hproblem⟩ := hread line e hbody hn hend
  have hnone : (e.prepend line).label? = none := by
    refine Option.eq_none_iff_forall_ne_some.2 fun name hname => ?_
    obtain ⟨t, u, rest, rfl, ht, hu⟩ := Cursor.exists_of_label? hend hname
    exact hlabel name (rest.map (·.token)) (by rw [← hbody]; simp [ht, hu])
  have hadd (b : Assembly) : b.addLine l = b.report ⟨before.length + 1, problem⟩ := by
    rw [Assembly.addLine, hstart, Assembler.nextLine_of_none hnone, hproblem]
  have hmem : ⟨before.length + 1, problem⟩ ∈ ((init.foldl Assembly.addLine {}).report
      ⟨before.length + 1, problem⟩).diagnostics.toList := by
    simp [Assembly.report]
  rw [assembleTokens_eq hnumbered, Assembly.finish_eq, hcut, List.foldl_append, List.foldl_cons,
    hadd, Array.toList_appendList]
  exact List.mem_append_left _ ((Assembly.diagnostics_foldl tail _).subset hmem)

/-- **A line that cannot be read is reported once**, with the reason, if it starts with no label. -/
theorem reported_of_line {problem : Problem}
    (hlabel : ∀ name rest, body ≠ .ident name :: .colon :: rest)
    (hread : ∀ line (e : Cursor), line.map (·.token) = body →
      (∀ t ∈ line, t.line = before.length + 1) → e.atLineEnd →
      ∃ c, readBody (e.prepend line) = (c, .error ⟨before.length + 1, problem⟩)) :
    a.diagnostics.toList.filter (·.line = before.length + 1) = [⟨before.length + 1, problem⟩] := by
  have htokens : (body.map fun t => (⟨t, before.length + 1⟩ : LineToken)).map (·.token) = body := by
    simp [Function.comp_def]
  obtain ⟨c, hproblem⟩ := hread (body.map (⟨·, before.length + 1⟩)) ⟨[], 1⟩ htokens (by simp) rfl
  have hne : body ≠ [] := by
    rintro rfl
    cases hproblem
  have hd : ∀ operations, ¬ Denotes body operations := by
    intro operations h
    have honeline : OnOneLine (body.map (⟨·, before.length + 1⟩)) := by
      rw [onOneLine_iff, htokens]
      exact h.newline_notMem
    have hread := Statement.read_iff_denotes (e := ⟨[], 1⟩) honeline rfl operations
    obtain ⟨s, d, hs, -⟩ := hread.2.1.2 (htokens.symm ▸ h)
    cases hproblem.symm.trans hs
  obtain ⟨q, last, later, problems, -, -, -, -, hproblems, hincreasing, hfilter⟩ :=
    exists_body ha hlines hline fun _ => .malformed hne hlabel hd
  have hreported := mem_diagnostics_of_line ha hlines hline hne hlabel hread
  have hmem : ⟨before.length + 1, problem⟩ ∈
      a.diagnostics.toList.filter (·.line = before.length + 1) :=
    List.mem_filter.2 ⟨hreported, by simp⟩
  rw [hfilter] at hmem ⊢
  rw [← hproblems] at hincreasing
  exact filter_line_eq hincreasing (List.mem_filter.1 hmem).1

end

end Eqasm
