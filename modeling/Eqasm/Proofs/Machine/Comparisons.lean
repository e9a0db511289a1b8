import Eqasm.Backend.Ideal
import Eqasm.Proofs.Cell.Views
import Eqasm.Proofs.Machine.Measurements
import Eqasm.Proofs.Machine.Notes

/-!
# Comparisons

The flags of a machine are those of the last comparison since they were last cleared, whatever was
executed or written in between (`Machine.flags_of_history`): nothing but a comparison that finds its
registers changes them (`Datapath.flags_execute`).
-/

namespace Eqasm

/-- The flags behind comparisons. -/
def Flags.behind (flags : Flags) (comparisons : List (Cell × Cell)) : Flags :=
  comparisons.foldl (fun flags c => flags.compare c.1 c.2) flags

namespace Datapath

variable {β : Type}

/-- The comparison that an operation makes: the cells in its two registers, if these exist. -/
def comparisons (s : Datapath β) : Operation → List (Cell × Cell)
  | .cmp rs rt =>
    match s.general.read rs, s.general.read rt with
    | .ok a, .ok b => [(a, b)]
    | _, _ => []
  | _ => []

/-! ## Operations that compare nothing -/

/-- If the computation succeeds, it leaves the flags as they are. -/
abbrev KeepsFlags (s : Datapath β) (x : Except Fault (Datapath β)) : Prop :=
  Gives (fun _ => True) (fun t => t.flags = s.flags) x

variable (s : Datapath β)

theorem keepsFlags_writeGeneral (rd : Nat) (c : Cell) : s.KeepsFlags (s.writeGeneral rd c) :=
  gives_bind fun _ => gives_pure rfl

theorem keepsFlags_writeUnsigned (rd n : Nat) : s.KeepsFlags (s.writeUnsigned rd n) :=
  gives_bind fun c => s.keepsFlags_writeGeneral rd c

theorem keepsFlags_writeSigned (rd : Nat) (v : Int) : s.KeepsFlags (s.writeSigned rd v) :=
  gives_bind fun c => s.keepsFlags_writeGeneral rd c

theorem keepsFlags_writeFloating (fd : Nat) (c : Cell) : s.KeepsFlags (s.writeFloating fd c) :=
  gives_bind fun _ => gives_pure rfl

theorem keepsFlags_compute {o : Operation} (ho : ∀ rs rt, o ≠ .cmp rs rt) :
    s.KeepsFlags (s.compute o) := by
  cases o with
  | nop | stop | qwait | br | bundle => exact gives_pure rfl
  | cmp rs rt => exact absurd rfl (ho rs rt)
  | qwaitr | smis | smit => exact gives_bind fun _ => gives_pure rfl
  | not rd => exact gives_bind fun _ => s.keepsFlags_writeGeneral rd _
  | fbr flag rd => exact s.keepsFlags_writeUnsigned rd _
  | fmr rd => exact gives_bind fun _ => s.keepsFlags_writeUnsigned rd _
  | ldi rd => exact s.keepsFlags_writeSigned rd _
  | ldui rd => exact gives_bind fun _ => gives_bind fun _ => s.keepsFlags_writeGeneral rd _
  | alu op rd =>
    exact gives_bind fun _ => gives_bind fun _ => gives_bind fun _ =>
      s.keepsFlags_writeGeneral rd _
  | load op rd => exact gives_bind fun _ => gives_bind fun _ => s.keepsFlags_writeGeneral rd _
  | store | fsw => exact gives_bind fun _ => gives_bind fun _ => gives_bind fun _ => gives_pure rfl
  | fcvtws rd => exact gives_bind fun _ => s.keepsFlags_writeSigned rd _
  | fcvtsw fd => exact gives_bind fun _ => s.keepsFlags_writeFloating fd _
  | flw fd => exact gives_bind fun _ => gives_bind fun _ => s.keepsFlags_writeFloating fd _
  | fpu op fd =>
    exact gives_bind fun _ => gives_bind fun _ => gives_bind fun _ =>
      s.keepsFlags_writeFloating fd _
  | fcmp op rd => exact gives_bind fun _ => gives_bind fun _ => s.keepsFlags_writeUnsigned rd _

theorem keepsFlags_written (w : Write) : s.KeepsFlags (s.written w) := by
  cases w with
  | general i c => exact s.keepsFlags_writeGeneral i c
  | signed i v => exact s.keepsFlags_writeSigned i v
  | floating i c => exact s.keepsFlags_writeFloating i c
  | clearGeneral | clearFloating => exact gives_pure rfl
  | byte | word | image => exact gives_bind fun _ => gives_pure rfl

theorem flags_write (w : Write) : (write w s).1.flags = s.flags := by
  have hkeeps := s.keepsFlags_written w
  rcases h : write w s with ⟨t, cause | ⟨⟩⟩
  · rw [write_eq, Work.attempt_eq_error] at h
    rw [h.1]
  · rw [write_eq, Work.attempt_eq_ok] at h
    rw [h] at hkeeps
    exact hkeeps

/-! ## Comparisons -/

/-- A comparison sets the flags if its registers exist, and fails if they do not. -/
theorem compute_cmp (rs rt : Nat) :
    (∃ a b, s.comparisons (.cmp rs rt) = [(a, b)] ∧
      s.compute (.cmp rs rt) = .ok { s with flags := s.flags.compare a b }) ∨
    (s.comparisons (.cmp rs rt) = [] ∧ ∃ cause, s.compute (.cmp rs rt) = .error cause) := by
  simp only [comparisons, compute]
  cases ha : s.general.read rs with
  | error cause => exact .inr ⟨rfl, cause, rfl⟩
  | ok a =>
    cases hb : s.general.read rt with
    | error cause => exact .inr ⟨rfl, cause, rfl⟩
    | ok b => exact .inl ⟨a, b, rfl, rfl⟩

/-- **Nothing but a comparison changes the flags**: no other operation, and none that fails. -/
theorem flags_execute [Backend β] (o : Operation) :
    (s.execute o).1.flags = s.flags.behind (s.comparisons o) := by
  by_cases hcmp : ∃ rs rt, o = .cmp rs rt
  · obtain ⟨rs, rt, rfl⟩ := hcmp
    rw [execute_eq (by simp)]
    rcases s.compute_cmp rs rt with ⟨a, b, hnote, h⟩ | ⟨hnote, cause, h⟩
    · rw [hnote, h]
      rfl
    · rw [hnote, h]
      rfl
  · have ho : ∀ rs rt, o ≠ .cmp rs rt := fun rs rt e => hcmp ⟨rs, rt, e⟩
    have hnone : s.comparisons o = [] := by
      cases o with
      | cmp rs rt => exact absurd rfl (ho rs rt)
      | _ => rfl
    rw [hnone]
    rcases he : s.execute o with ⟨t, r⟩
    cases executes_of_execute he with
    | failed | unresolved => rfl
    | done _ hcompute =>
      have hkeeps := s.keepsFlags_compute ho
      rw [hcompute] at hkeeps
      exact hkeeps
    | interrupted _ hissue | issued _ hissue =>
      rw [(touches_of_issue hissue).others]
      rfl

variable {s} {config : Config}

/-- The cells that are compared have the width of the registers. -/
theorem Sound.width_comparisons (h : s.Sound config) {o : Operation} {a b : Cell}
    (hc : (a, b) ∈ s.comparisons o) :
    a.width = config.generalWidth ∧ b.width = config.generalWidth := by
  cases o with
  | cmp rs rt =>
    simp only [comparisons] at hc
    split at hc
    · rename_i ha hb
      cases List.mem_singleton.1 hc
      exact ⟨h.general.width_of_read ha, h.general.width_of_read hb⟩
    · cases hc
  | _ => cases hc

/-- A flag that is read is put into a register as 0 or 1. -/
theorem execute_fbr [Backend β] (s : Datapath β) (flag : Flag) {rd : Nat}
    (hrd : rd < s.general.size) :
    ∃ c : Cell, c.width = s.general.width ∧ c.bits = (if s.flags.get flag then 1 else 0) ∧
      s.execute (.fbr flag rd) =
        ({ s with general := { s.general with cells := s.general.cells.setIfInBounds rd c } },
          .ok .next) := by
  have hle : (if s.flags.get flag then 1 else 0) ≤ 1 := by
    split <;> decide
  obtain ⟨c, hwidth, hbits, hwrite⟩ := s.exists_writeUnsigned hle hrd
  have hcompute : s.compute (.fbr flag rd) = _ := hwrite
  exact ⟨c, hwidth, hbits, by rw [execute_eq (by simp), hcompute]; rfl⟩

end Datapath

namespace Machine

variable {β : Type} [Backend β]

/-- What the comparisons that were noted have to do with the datapath. -/
structure Compared (config : Config) (comparisons : List (Cell × Cell)) (s : Datapath β) :
    Prop where
  sound : s.Sound config
  flags : s.flags = ({} : Flags).behind comparisons
  widths : ∀ c ∈ comparisons, c.1.width = config.generalWidth ∧ c.2.width = config.generalWidth

/-- **The flags are those of the comparisons since they were last cleared.** -/
theorem compared_acts {config : Config} {m : Machine β} (h : m.data.Sound config)
    (hflags : m.data.flags = {}) (history : List Action) :
    Compared config (m.notesSince Datapath.comparisons [] history) (m.acts history).data := by
  -- cells have the width of the registers because these are sound when they are compared
  refine notesSince_induction ?_ ?_ ?_ ?_ ⟨h, hflags, by simp⟩ history
  · intro notes s o h
    refine ⟨h.sound.execute rfl, ?_, List.forall_mem_append.2 ⟨h.widths, ?_⟩⟩
    · rw [s.flags_execute, h.flags, Flags.behind, Flags.behind, Flags.behind, List.foldl_append]
    · exact fun c hc => h.sound.width_comparisons hc
  · exact fun notes s h => ⟨h.sound.restart, rfl, by simp⟩
  · exact fun notes s h => ⟨h.sound.clear, h.flags, h.widths⟩
  · intro notes s w h
    exact ⟨h.sound.effect (Datapath.effect_of_write rfl), (s.flags_write w).trans h.flags, h.widths⟩

/-- A branch goes on with its label exactly if its flag is set. -/
theorem step_br {m : Machine β} {i : Instruction} {flag : Flag} {label : String}
    (hh : m.halted = false) (hi : m.program[m.pc]? = some i) (ho : i.operation = .br flag label) :
    m.step =
      if m.data.flags.get flag then
        match m.labels.find? label with
        | some k => ({ m with cycle := m.cycle + 1, pc := k }, none)
        | none => ({ m with cycle := m.cycle + 1 }, some (.undefinedLabel m.pc label))
      else ({ m with cycle := m.cycle + 1, pc := m.pc + 1 }, none) := by
  have he : m.data.execute i.operation = (m.data, .ok (i.operation.flow m.data.flags)) := by
    rw [ho]
    exact Datapath.execute_br ..
  rw [ho, Operation.flow] at he
  split
  · rename_i hflag
    rw [if_pos hflag, ← ho] at he
    split
    · exact (Steps.jump hh hi he ‹_›).step_eq
    · exact (Steps.lost hh hi he ‹_›).step_eq
  · rename_i hflag
    rw [if_neg hflag, ← ho] at he
    exact (Steps.next hh hi he).step_eq

/-- **Flags remember the last comparison.** Behind every history the ten flags say how the cells
compare that the last comparison has read since the machine was made, restarted or reset, or has
accepted an upload: as patterns, as unsigned numbers and as two's complements. If there was no
comparison since, none of them is set. One further flag is always set and one never. A flag that is
read is put into a register as 0 or 1, and a branch goes on with its label exactly if its flag is
set. -/
theorem flags_of_history {config : Config}
    (hg : 0 < config.generalWidth ∧ config.generalWidth ≤ 64)
    (hf : 0 < config.floatWidth ∧ config.floatWidth ≤ 64) (backend : β) :
    ∃ m₀, make config backend = .ok m₀ ∧
      ∀ history m, m₀.acts history = m →
        ((∃ a b : Cell, (m₀.notesSince Datapath.comparisons [] history).getLast? = some (a, b) ∧
            a.width = config.generalWidth ∧ b.width = config.generalWidth ∧
            ∀ r, m.data.flags.get (.relation r) = true ↔ r.Meaning a b) ∨
          m₀.notesSince Datapath.comparisons [] history = [] ∧
            ∀ r, m.data.flags.get (.relation r) = false) ∧
        m.data.flags.get .always = true ∧ m.data.flags.get .never = false ∧
        (∀ flag, ∀ rd < config.generalCount, ∃ c : Cell, c.width = config.generalWidth ∧
          c.bits = (if m.data.flags.get flag then 1 else 0) ∧
          m.data.execute (.fbr flag rd) =
            ({ m.data with general :=
                { m.data.general with cells := m.data.general.cells.setIfInBounds rd c } },
              .ok .next)) ∧
        ∀ i flag label, m.halted = false → m.program[m.pc]? = some i →
          i.operation = .br flag label →
          m.step =
            if m.data.flags.get flag then
              match m.labels.find? label with
              | some k => ({ m with cycle := m.cycle + 1, pc := k }, none)
              | none => ({ m with cycle := m.cycle + 1 }, some (.undefinedLabel m.pc label))
            else ({ m with cycle := m.cycle + 1, pc := m.pc + 1 }, none) := by
  obtain ⟨m₀, hmake, hsound, -⟩ := exists_make hg hf backend
  refine ⟨m₀, hmake, ?_⟩
  rintro history m rfl
  have hstart : m₀.data.flags = {} := by
    obtain ⟨general, -, h⟩ := except_bind_eq_ok.1 hmake
    obtain ⟨floating, -, h⟩ := except_bind_eq_ok.1 h
    cases h
    rfl
  obtain ⟨hdata, hflags, hwidths⟩ := compared_acts hsound.data hstart history
  refine ⟨?_, hdata.always, hdata.never, fun flag rd hrd => ?_, fun i flag label => step_br⟩
  · rcases List.eq_nil_or_concat (m₀.notesSince Datapath.comparisons [] history)
      with hnone | ⟨before, ⟨a, b⟩, hlast⟩
    · refine .inr ⟨hnone, fun r => ?_⟩
      rw [hflags, hnone]
      cases r <;> rfl
    · rw [hlast] at hflags hwidths
      obtain ⟨ha, hb⟩ := hwidths (a, b) (by simp)
      have hcompare : (m₀.acts history).data.flags = (Flags.behind {} before).compare a b := by
        rw [hflags, Flags.behind, List.concat_eq_append, List.foldl_append]
        rfl
      refine .inl ⟨a, b, by rw [hlast]; simp, ha, hb, fun r => ?_⟩
      rw [hcompare, Flags.get_compare, Relation.holds_iff (ha.trans hb.symm)]
  · rw [← hdata.general.size_eq] at hrd
    rw [← hdata.general.width_eq]
    exact Datapath.execute_fbr _ flag hrd

/-- Of two registers with four bits, -3 and 5 are compared, and then one of them is written. -/
theorem flags_of_history_of_write :
    ∃ (m₀ m : Machine Ideal) (a b : Cell),
      make { generalCount := 2, generalWidth := 4, floatCount := 1 } ⟨⟩ = .ok m₀ ∧
      m₀.acts [.write (.signed 0 (-3)), .write (.signed 1 5), .append ⟨[], .cmp 0 1⟩, .step,
        .write (.signed 0 7)] = m ∧
      a.bits = 13 ∧ b.bits = 5 ∧ ∀ r, m.data.flags.get (.relation r) = true ↔ r.Meaning a b := by
  obtain ⟨config, hconfig⟩ :
      ∃ c : Config, { generalCount := 2, generalWidth := 4, floatCount := 1 } = c := ⟨_, rfl⟩
  have hg : 0 < config.generalWidth ∧ config.generalWidth ≤ 64 := by
    subst hconfig
    decide
  have hf : 0 < config.floatWidth ∧ config.floatWidth ≤ 64 := by
    subst hconfig
    decide
  obtain ⟨m₀, hmake, hflags⟩ := flags_of_history hg hf (⟨⟩ : Ideal)
  obtain ⟨hlast, -⟩ := hflags [.write (.signed 0 (-3)), .write (.signed 1 5),
    .append ⟨[], .cmp 0 1⟩, .step, .write (.signed 0 7)] _ rfl
  have hnoted : (m₀.notesSince Datapath.comparisons [] [.write (.signed 0 (-3)),
      .write (.signed 1 5), .append ⟨[], .cmp 0 1⟩, .step, .write (.signed 0 7)]).getLast?.map
        (fun c => (c.1.bits, c.2.bits)) = some (13, 5) := by
    subst hconfig
    cases hmake
    decide +kernel
  subst hconfig
  rcases hlast with ⟨a, b, hget, -, -, hr⟩ | ⟨hnone, -⟩
  · rw [hget] at hnoted
    obtain ⟨ha, hb⟩ := Prod.mk.inj (Option.some.inj hnoted)
    exact ⟨m₀, _, a, b, hmake, rfl, ha, hb, hr⟩
  · rw [hnone] at hnoted
    cases hnoted

end Machine

end Eqasm
