import Eqasm.Assembly
import Eqasm.Proofs.LabelTable.Carried
import Eqasm.Proofs.Statement.Exactness
import Eqasm.Proofs.Statement.WellFormed
import Eqasm.Proofs.Token.Tiling

/-!
# Assembled programs are well-formed

Whatever the text, and whether or not its lines have problems, the instructions that are assembled
are well-formed and the label table describes them (`sound_of_assemble`). The invariant
`Assembly.Sound` also keeps the labels that wait for an instruction apart from those that have one;
each step of the assembler preserves it, if the tokens that are left are such as the lexer gives
(`Assembler.Sound`).
-/

namespace Eqasm

theorem Statement.expand_ne_nil (s : Statement) : s.expand ≠ [] := by
  cases s <;> simp [expand]

/-- Instructions without labels add nothing to what a table describes. -/
theorem LabelTable.Describes.append_unlabelled {t : LabelTable} {p q : List Instruction}
    (h : t.Describes p) (hq : ∀ i ∈ q, i.labels = []) : t.Describes (p ++ q) := by
  have hcarried : ∀ index, carried index q = [] := by
    induction q with
    | nil => exact fun _ => rfl
    | cons i q ih =>
      intro index
      rw [carried, hq i (by simp), ih fun j hj => hq j (by simp [hj])]
      rfl
  have hlabels : q.flatMap (·.labels) = [] := List.flatMap_eq_nil_iff.2 hq
  constructor
  · rw [carried_append, hcarried, List.append_nil, h.entries]
  · rw [List.flatMap_append, hlabels, List.append_nil]
    exact h.labels_nodup

namespace Assembly

/-- What holds of a program at every line. -/
structure Sound (a : Assembly) : Prop where
  instructions : ∀ i ∈ a.instructions.toList, i.WellFormed
  labels : a.labels.Describes a.instructions.toList
  pending_name : ∀ l ∈ a.pending.map Prod.fst, IsName l
  pending_nodup : (a.pending.map Prod.fst).Nodup
  /-- A label that waits names no instruction yet. -/
  pending_new : ∀ l ∈ a.pending.map Prod.fst, l ∉ a.instructions.toList.flatMap (·.labels)

theorem sound_empty : Sound {} :=
  ⟨by simp, LabelTable.describes_empty, by simp, by simp, by simp⟩

theorem Sound.report {a : Assembly} (h : a.Sound) (d : Diagnostic) : (a.report d).Sound :=
  ⟨h.instructions, h.labels, h.pending_name, h.pending_nodup, h.pending_new⟩

theorem Sound.declares_iff {a : Assembly} (h : a.Sound) {label : String} :
    a.declares label ↔ label ∈ a.instructions.toList.flatMap (·.labels) ∨
      label ∈ a.pending.map Prod.fst := by
  rw [declares, Bool.or_eq_true, h.labels.contains_iff]
  simp [List.any_eq_true]

/-- A name that is not declared yet may wait too. -/
theorem Sound.declare {a : Assembly} (h : a.Sound) {name : String} (hn : IsName name)
    (hnew : ¬ a.declares name) (line : Nat) : (a.declare name line).Sound := by
  rw [h.declares_iff, not_or] at hnew
  have hpending : (a.declare name line).pending.map Prod.fst =
      a.pending.map Prod.fst ++ [name] := by
    simp [Assembly.declare]
  constructor
  · exact h.instructions
  · exact h.labels
  · rw [hpending, List.forall_mem_append]
    exact ⟨h.pending_name, by simpa using hn⟩
  · rw [hpending, List.nodup_append]
    refine ⟨h.pending_nodup, by simp, ?_⟩
    rintro k hk l hl rfl
    exact hnew.2 (List.mem_singleton.1 hl ▸ hk)
  · rw [hpending, List.forall_mem_append]
    exact ⟨h.pending_new, List.forall_mem_singleton.2 hnew.1⟩

/-- Adding operations gives the labels that wait to the first one. -/
theorem Sound.emit {a : Assembly} (h : a.Sound) {operations : List Operation}
    (hne : operations ≠ []) (hw : ∀ o ∈ operations, o.WellFormed) : (a.emit operations).Sound := by
  rcases operations with _ | ⟨o, rest⟩
  · exact absurd rfl hne
  have hinstructions : (a.emit (o :: rest)).instructions.toList =
      a.instructions.toList ++ [⟨a.pending.map Prod.fst, o⟩] ++ rest.map fun o => ⟨[], o⟩ := by
    simp [Assembly.emit, label]
  have hfirst : Instruction.WellFormed ⟨a.pending.map Prod.fst, o⟩ :=
    ⟨h.pending_name, hw o (by simp)⟩
  have hrest : ∀ i ∈ rest.map (fun o => (⟨[], o⟩ : Instruction)), i.WellFormed := by
    refine List.forall_mem_map.2 fun p hp => ⟨by simp, hw p (by simp [hp])⟩
  have hlabels := h.labels.insertAll (i := ⟨a.pending.map Prod.fst, o⟩) h.pending_nodup
    h.pending_new
  constructor
  · rw [hinstructions, List.forall_mem_append, List.forall_mem_append]
    exact ⟨⟨h.instructions, by simpa using hfirst⟩, hrest⟩
  · rw [hinstructions]
    exact hlabels.append_unlabelled (List.forall_mem_map.2 fun _ _ => rfl)
  all_goals simp [Assembly.emit]

/-- Labels that wait are reported one after the other, and nothing else is changed. -/
theorem foldl_report (pending : List (String × Nat)) (a : Assembly) :
    pending.foldl (fun a (name, line) => a.report ⟨line, .danglingLabel name⟩) a =
      { a with
        diagnostics := a.diagnostics ++
          (pending.map fun (name, line) => (⟨line, .danglingLabel name⟩ : Diagnostic)) } := by
  induction pending generalizing a with
  | nil => simp
  | cons p pending ih =>
    rw [List.foldl_cons, ih]
    simp [report]

theorem finish_eq (a : Assembly) : a.finish =
    { a with
      pending := []
      diagnostics := a.diagnostics ++
        (a.pending.map fun (name, line) => (⟨line, .danglingLabel name⟩ : Diagnostic)) } := by
  rw [finish, foldl_report]

theorem Sound.finish {a : Assembly} (h : a.Sound) : a.finish.Sound := by
  rw [finish_eq]
  exact ⟨h.instructions, h.labels, by simp, by simp, by simp⟩

end Assembly

namespace Assembler

/-- What holds at every place of a text with valid tokens. -/
structure Sound (p : Assembler) : Prop where
  made : p.made.Sound
  valid : ∀ t ∈ p.cursor.left, t.token.Valid

/-- A token that is next is valid. -/
theorem Sound.valid_next? {p : Assembler} (h : p.Sound) {t : Token} (ht : p.cursor.next? = some t) :
    t.Valid := by
  obtain ⟨u, hu, rfl⟩ := Option.map_eq_some_iff.1 ht
  exact h.valid u (List.mem_of_mem_head? hu)

/-- The assembler goes on in valid tokens. -/
theorem Sound.of_suffix {p q : Assembler} (h : p.Sound) (hq : q.made.Sound)
    (hs : q.cursor.left <:+ p.cursor.left) : q.Sound :=
  ⟨hq, fun t ht => h.valid t (hs.subset ht)⟩

theorem Sound.declareLabels {p q : Assembler} {r : Except Diagnostic Unit} (h : p.Sound)
    (e : declareLabels p = (q, r)) : q.Sound := by
  fun_induction Assembler.declareLabels p with
  | case1 =>
    cases e
    exact h
  | case2 =>
    cases e
    exact h
  | case3 p name hname hnew ih =>
    have hvalid : IsName name := h.valid_next? (Cursor.label?_eq_some.1 hname).1
    exact ih (h.of_suffix (h.made.declare hvalid hnew _)
      ((List.tail_suffix _).trans (List.tail_suffix _))) e

/-- A statement that is read of valid tokens is well-formed. -/
theorem Sound.wellFormed_of_readBody {p : Assembler} {c : Cursor} {s : Statement} (h : p.Sound)
    (e : readBody p.cursor = (c, .ok (some s))) : ∀ o ∈ s.expand, o.WellFormed := by
  obtain ⟨-, d, hs, -, -⟩ := readBody_eq_some.1 e
  obtain ⟨taken, htaken, hd⟩ := denotes_of_read hs
  obtain ⟨line, rfl, hline⟩ := hd.exists_prepend
  refine htaken.wellFormed (List.forall_mem_map.2 fun t ht => h.valid t ?_)
  rw [hline]
  exact List.mem_append_left _ ht

theorem Sound.readsLine {p q : Assembler} {r : Except Diagnostic Unit} (h : p.Sound)
    (e : ReadsLine p q r) : q.Sound := by
  refine h.of_suffix ?_ e.suffix
  cases e with
  | duplicate hlabels | malformed hlabels | empty hlabels => exact (h.declareLabels hlabels).made
  | @statement q c s hlabels hbody =>
    have hq := h.declareLabels hlabels
    exact hq.made.emit s.expand_ne_nil (hq.wellFormed_of_readBody hbody)

/-- Each line keeps a program sound. -/
theorem Sound.nextLine {p : Assembler} (h : p.Sound) : p.nextLine.Sound := by
  rw [Assembler.nextLine]
  split <;> rename_i e
  · exact h.readsLine (readsLine_of_line e)
  · have hq := h.readsLine (readsLine_of_line e)
    exact hq.of_suffix (hq.made.report _) (Cursor.suffix_skipLine _)

theorem Sound.run {p : Assembler} (h : p.Sound) : p.run.Sound := by
  fun_induction Assembler.run p with
  | case1 p _ => exact h.made.finish
  | case2 p _ ih => exact ih h.nextLine

end Assembler

/-- A text is assembled if it has tokens. -/
theorem assemble_eq_ok {source : String} {a : Assembly} : assemble source = .ok a ↔
    ∃ ts, tokenize source = .ok ts ∧ a = assembleTokens ts := by
  rw [assemble]
  cases tokenize source with
  | error e => simp [Except.map]
  | ok ts => simp [Except.map, eq_comm]

/-- **What a text is assembled to is sound.** -/
theorem sound_of_assemble {source : String} {a : Assembly} (h : assemble source = .ok a) :
    a.Sound := by
  obtain ⟨ts, hts, rfl⟩ := assemble_eq_ok.1 h
  have hstart : Assembler.Sound { made := {}, cursor := .start (ts.map (·.onLine)) } :=
    ⟨Assembly.sound_empty, List.forall_mem_map.2 (valid_of_tokenize hts)⟩
  exact hstart.run

end Eqasm
