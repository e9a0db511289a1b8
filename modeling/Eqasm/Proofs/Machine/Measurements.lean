import Eqasm.Proofs.Machine.Dispatch
import Eqasm.Proofs.Machine.Notes
import Eqasm.Proofs.Machine.Sound

/-!
# Measurement results

The results of a machine are those of the replies that its backend gave since the results were last
cleared (`Machine.results_acts`): the result of a qubit is its last outcome, and 0 if there was
none. This is what a program reads (`Machine.result_of_history`).
-/

namespace Eqasm

-- Powers are the ones of the core library, whatever else is in scope.
attribute [local instance (2000)] instPowNat

/-- Cells of all widths hold 0 and 1. -/
theorem Cell.exists_ofUnsigned (blank : Cell) {n : Nat} (hn : n ≤ 1) :
    ∃ c, Cell.ofUnsigned n blank.width = .ok c ∧ c.width = blank.width ∧ c.bits = n := by
  have htwo : 2 ^ 1 ≤ 2 ^ blank.width := Nat.pow_le_pow_right (by decide) blank.width_pos
  have hlt : n < 2 ^ blank.width := by omega
  refine ⟨⟨blank.width, n, blank.width_pos, blank.width_le, hlt⟩, ?_, rfl, rfl⟩
  rw [Cell.ofUnsigned, dif_pos ⟨blank.width_pos, blank.width_le⟩, dif_pos hlt]

namespace Datapath

variable {β : Type}

/-- The replies of the backend to the calls of an operation. -/
def replies [Backend β] (s : Datapath β) : Operation → List Reply
  | .bundle _ ops =>
    match resolve s.targets ops with
    | .ok calls => (Backend.serve s.backend calls).1
    | .error _ => []
  | _ => []

/-- Of all operations bundles alone change results, by the replies to their calls. -/
theorem results_execute [Backend β] (s : Datapath β) (o : Operation) :
    (s.execute o).1.results = (s.replies o).foldl Reply.record s.results := by
  have hnone : ∀ {o}, (∀ pi ops, o ≠ .bundle pi ops) → s.replies o = [] := by
    intro o ho
    cases o with
    | bundle pi ops => exact absurd rfl (ho pi ops)
    | _ => rfl
  rcases he : s.execute o with ⟨t, r⟩
  cases executes_of_execute he with
  | failed ho => rw [hnone ho]; rfl
  | done ho hcompute =>
    rw [hnone ho]
    exact (effect_of_compute hcompute).results_backend.1
  | unresolved hresolve => simp only [replies, hresolve, List.foldl_nil]
  | @interrupted _ _ calls _ _ hresolve hissue | @issued _ _ calls _ hresolve hissue =>
    have hserve := s.issue_eq_serve calls
    rw [hissue] at hserve
    simp only [replies, hresolve, (Prod.mk.inj hserve).1]

/-- Registers of all widths take 0 and 1 as unsigned numbers. -/
theorem exists_writeUnsigned (s : Datapath β) {rd n : Nat} (hn : n ≤ 1)
    (hrd : rd < s.general.size) :
    ∃ c : Cell, c.width = s.general.width ∧ c.bits = n ∧ s.writeUnsigned rd n =
      .ok { s with general := { s.general with cells := s.general.cells.setIfInBounds rd c } } := by
  obtain ⟨c, hc, hwidth, hbits⟩ := s.general.blank.exists_ofUnsigned hn
  have hwrite := Bank.write_eq_ok.2 ⟨hrd, hwidth, rfl⟩
  exact ⟨c, hwidth, hbits, except_bind_eq_ok.2 ⟨c, hc, except_bind_eq_ok.2 ⟨_, hwrite, rfl⟩⟩⟩

/-- A measurement result that is read is put into a register as an unsigned number. -/
theorem execute_fmr [Backend β] {s : Datapath β} {rd q n : Nat} (hq : s.results[q]? = some n)
    (hn : n ≤ 1) (hrd : rd < s.general.size) :
    ∃ c : Cell, c.width = s.general.width ∧ c.bits = n ∧ s.execute (.fmr rd q) =
      ({ s with general := { s.general with cells := s.general.cells.setIfInBounds rd c } },
        .ok .next) := by
  obtain ⟨c, hwidth, hbits, hwrite⟩ := s.exists_writeUnsigned hn hrd
  refine ⟨c, hwidth, hbits, ?_⟩
  have hresult : s.result q = .ok n := by
    simp only [result, hq]
  have hcompute : s.compute (.fmr rd q) = _ := except_bind_eq_ok.2 ⟨n, hresult, hwrite⟩
  rw [execute_eq (by simp), hcompute]
  rfl

end Datapath

namespace Machine

variable {β : Type} [Backend β]

/-! ## Results -/

/-- Results that are cleared are those of no replies. -/
theorem map_zero_eq {results : Array Nat} {qubits : Nat} {replies : List Reply}
    (h : results = replies.foldl Reply.record (.replicate qubits 0)) :
    results.map (fun _ => 0) = .replicate qubits 0 := by
  rw [Array.map_const', h, Reply.size_foldl_record, Array.size_replicate]

/-- **Results come from the replies since they were last cleared.** -/
theorem results_acts {m : Machine β} {qubits : Nat} {replies : List Reply}
    (h : m.data.results = replies.foldl Reply.record (.replicate qubits 0))
    (history : List Action) : (m.acts history).data.results =
      (m.notesSince Datapath.replies replies history).foldl Reply.record (.replicate qubits 0) := by
  refine notesSince_induction (P := fun replies s => s.results =
    replies.foldl Reply.record (.replicate qubits 0)) ?_ ?_ ?_ ?_ h history
  · intro replies s o h
    rw [s.results_execute, h, List.foldl_append]
  · exact fun replies s h => map_zero_eq h
  · exact fun replies s h => h
  · exact fun replies s w h => (Datapath.effect_of_write rfl).results_backend.1.trans h

/-! ## Reading results -/

/-- **Programs read the last measurement.** Behind every history the result of a qubit is the
outcome of the last measurement with outcome 0 or 1 since the machine was made, restarted or reset,
or has accepted an upload; it is 0 if there was no such measurement. An operation that reads the
result puts just this number, as an unsigned one, into its register. -/
theorem result_of_history {config : Config}
    (hg : 0 < config.generalWidth ∧ config.generalWidth ≤ 64)
    (hf : 0 < config.floatWidth ∧ config.floatWidth ≤ 64) (backend : β) :
    ∃ m₀, make config backend = .ok m₀ ∧
      ∀ history m, m₀.acts history = m → ∀ q < config.qubits, ∃ n,
        m.data.results[q]? = some n ∧
        (Reply.LastOutcome q n (m₀.notesSince Datapath.replies [] history) ∨
          n = 0 ∧ Reply.NoOutcome q (m₀.notesSince Datapath.replies [] history)) ∧
        ∀ rd < config.generalCount, ∃ c : Cell, c.width = config.generalWidth ∧ c.bits = n ∧
          m.data.execute (.fmr rd q) =
            ({ m.data with general :=
                { m.data.general with cells := m.data.general.cells.setIfInBounds rd c } },
              .ok .next) := by
  obtain ⟨m₀, hmake, hsound, -⟩ := exists_make hg hf backend
  refine ⟨m₀, hmake, ?_⟩
  rintro history m rfl q hq
  have hstart : m₀.data.results = [].foldl Reply.record (.replicate config.qubits 0) := by
    obtain ⟨general, -, h⟩ := except_bind_eq_ok.1 hmake
    obtain ⟨floating, -, h⟩ := except_bind_eq_ok.1 h
    cases h
    rfl
  have hresults := results_acts hstart history
  have hdata := (hsound.acts (empty_of_make hmake).2 history).data
  have hresult : ∃ n, (m₀.acts history).data.results[q]? = some n ∧ n ≤ 1 ∧
      (Reply.LastOutcome q n (m₀.notesSince Datapath.replies [] history) ∨
        n = 0 ∧ Reply.NoOutcome q (m₀.notesSince Datapath.replies [] history)) := by
    rw [hresults]
    rcases Reply.exists_lastOutcome q (m₀.notesSince Datapath.replies [] history) with
      ⟨n, hn⟩ | hnone
    · exact ⟨n, Reply.getElem?_foldl_record_of_lastOutcome hn (by simpa using hq), hn.1, .inl hn⟩
    · refine ⟨0, ?_, Nat.zero_le 1, .inr ⟨rfl, hnone⟩⟩
      rw [Reply.getElem?_foldl_record_of_noOutcome hnone]
      simp [hq]
  obtain ⟨n, hn, hle, houtcome⟩ := hresult
  refine ⟨n, hn, houtcome, fun rd hrd => ?_⟩
  rw [← hdata.general.size_eq] at hrd
  rw [← hdata.general.width_eq]
  exact Datapath.execute_fmr hn hle hrd

/-- A qubit that was measured as 1 and then as 2. -/
theorem result_of_history_of_measure :
    ∃ m₀ : Machine Recording, make {} { script := [1, 2] } = .ok m₀ ∧
      Reply.LastOutcome 0 1 (m₀.notesSince Datapath.replies [] [.append ⟨[], .smis 0 [0]⟩,
        .append ⟨[], .bundle 1 [⟨"measure", .single 0⟩]⟩, .step, .step,
        .append ⟨[], .bundle 1 [⟨"measure", .single 0⟩]⟩, .step]) := by
  have hw : 0 < ({} : Config).generalWidth ∧ ({} : Config).generalWidth ≤ 64 := by decide
  obtain ⟨m₀, hmake, hresult⟩ := result_of_history hw hw ({ script := [1, 2] } : Recording)
  obtain ⟨n, hn, houtcome, -⟩ := hresult [.append ⟨[], .smis 0 [0]⟩,
    .append ⟨[], .bundle 1 [⟨"measure", .single 0⟩]⟩, .step, .step,
    .append ⟨[], .bundle 1 [⟨"measure", .single 0⟩]⟩, .step] _ rfl 0 (by decide)
  refine ⟨m₀, hmake, ?_⟩
  have hone : n = 1 := by
    have hread : (m₀.acts [.append ⟨[], .smis 0 [0]⟩,
        .append ⟨[], .bundle 1 [⟨"measure", .single 0⟩]⟩, .step, .step,
        .append ⟨[], .bundle 1 [⟨"measure", .single 0⟩]⟩, .step]).data.results[0]? = some 1 := by
      cases hmake
      decide +kernel
    exact Option.some.inj (hn.symm.trans hread)
  subst hone
  exact houtcome.resolve_right fun h => by cases h.1

end Machine

end Eqasm
