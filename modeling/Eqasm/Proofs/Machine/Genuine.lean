import Eqasm.Backend.BitFlip
import Eqasm.Backend.Coin
import Eqasm.Backend.Recording
import Eqasm.Proofs.Listing.RoundTrip
import Eqasm.Proofs.Machine.Run
import Eqasm.Proofs.Machine.Faults

/-!
# Genuine errors

A machine with registers of 32 bits executes programs that were read from texts. Its errors have
their cause in the program or in the backend (`Machine.genuine_of_history`): no widths, numbers or
lists fail to fit, branches find their labels, and a measurement is only invalid if the backend
measured something other than 0 and 1. Backends that measure bits never do (`Backend.Binary`).
-/

namespace Eqasm

/-! ## Backends -/

/-- A backend whose only faults are that it refuses a qubit. -/
structure Backend.OnlyRefuses (β : Type) [Backend β] : Prop where
  gate : ∀ (b : β) (name : String) (q : Nat),
    Gives Fault.IsRefusal (fun _ => True) (Backend.gate b name q)
  pairGate : ∀ (b : β) (name : String) (p q : Nat),
    Gives Fault.IsRefusal (fun _ => True) (Backend.pairGate b name p q)
  measure : ∀ (b : β) (q : Nat), Gives Fault.IsRefusal (fun _ => True) (Backend.measure b q)

/-- A backend that measures nothing but 0 and 1. -/
structure Backend.Binary (β : Type) [Backend β] : Prop extends Backend.OnlyRefuses β where
  measure_le : ∀ (b : β) (q : Nat), Gives Fault.IsRefusal (·.1 ≤ 1) (Backend.measure b q)

theorem Ideal.binary : Backend.Binary Ideal where
  gate _ _ _ := gives_ok trivial
  pairGate _ _ _ _ := gives_ok trivial
  measure _ _ := gives_ok trivial
  measure_le _ _ := gives_ok (Nat.zero_le 1)

theorem Coin.toss_le (c : Coin) : c.toss.1 ≤ 1 := by
  unfold toss
  split
  · exact Nat.le_refl 1
  · dsimp only
    split
    · exact Nat.le_refl 1
    · exact Nat.zero_le 1

theorem Coin.binary : Backend.Binary Coin where
  gate _ _ _ := gives_ok trivial
  pairGate _ _ _ _ := gives_ok trivial
  measure _ _ := gives_ok trivial
  measure_le c _ := gives_ok c.toss_le

namespace BitFlip

theorem gives_read (b : BitFlip) (q : Nat) : Gives Fault.IsRefusal (fun _ => True) (b.read q) := by
  unfold read
  split
  · exact gives_ok trivial
  · exact gives_error trivial

theorem gives_flip (b : BitFlip) (q : Nat) : Gives Fault.IsRefusal (fun _ => True) (b.flip q) :=
  (b.gives_read q).bind fun _ _ => gives_pure trivial

theorem gives_swap (b : BitFlip) (p q : Nat) :
    Gives Fault.IsRefusal (fun _ => True) (b.swap p q) :=
  (b.gives_read p).bind fun _ _ => (b.gives_read q).bind fun _ _ => gives_pure trivial

theorem gives_measure (b : BitFlip) (q : Nat) :
    Gives Fault.IsRefusal (·.1 ≤ 1) (Backend.measure b q) := by
  refine (b.gives_read q).bind fun bit _ => gives_pure ?_
  cases bit
  · exact Nat.zero_le 1
  · exact Nat.le_refl 1

theorem binary : Backend.Binary BitFlip where
  gate b _ q := .ite (fun _ => b.gives_flip q) fun _ => gives_ok trivial
  pairGate b _ p q := by
    refine .ite (fun _ => (b.gives_read p).bind fun bit _ => ?_) fun _ => ?_
    · exact .ite (fun _ => b.gives_flip q) fun _ => gives_pure trivial
    · exact .ite (fun _ => b.gives_swap p q) fun _ => gives_pure trivial
  measure b q := (b.gives_read q).bind fun _ _ => gives_pure trivial
  measure_le := gives_measure

end BitFlip

/-! ## Executions -/

namespace Datapath

variable {β : Type} [Backend β] {s t : Datapath β}

/-- A call goes wrong because the backend refuses it, or because it measured something other than 0
and 1. -/
theorem blame_of_perform (hβ : Backend.OnlyRefuses β) {c : Call} {cause : Fault}
    (h : s.perform c = (t, .error cause)) :
    (∃ q, cause = .backendRefused q) ∨
      ∃ q outcome, c = .measure q ∧ cause = .invalidMeasurement q outcome ∧
        Backend.measure s.backend q = .ok (outcome, t.backend) ∧ 1 < outcome := by
  have hrefused : ∀ {e : Fault}, e.IsRefusal → ∃ q, e = .backendRefused q := by
    intro e he
    cases e with
    | backendRefused q => exact ⟨q, rfl⟩
    | _ => exact he.elim
  cases c with
  | gate name q =>
    simp only [perform] at h
    split at h
    · cases h
    · rename_i hgate
      cases h
      exact .inl (hrefused ((hβ.gate _ _ _).error hgate))
  | pairGate name p q =>
    simp only [perform] at h
    split at h
    · cases h
    · rename_i hgate
      cases h
      exact .inl (hrefused ((hβ.pairGate _ _ _ _).error hgate))
  | measure q =>
    simp only [perform] at h
    split at h
    · rename_i hmeasure
      cases h
      exact .inl (hrefused ((hβ.measure _ _).error hmeasure))
    · rename_i outcome b hmeasure
      split at h
      · cases h
      · cases h
        exact .inr ⟨q, outcome, rfl, rfl, hmeasure, Nat.lt_of_not_le ‹_›⟩

/-- The operation is a bundle, whose calls go well up to the call `c` and leave `u` behind. -/
def ComesTo (s : Datapath β) (o : Operation) (c : Call) (u : Datapath β) : Prop :=
  ∃ pi ops calls before, o = .bundle pi ops ∧ resolve s.targets ops = .ok calls ∧
    before ++ [c] <+: calls ∧ s.issue before = (u, .ok ())

/-- What the fault of an execution is blamed on: the program, a call of a bundle for a qubit that
the backend does not have, or an outcome that the backend measured behind the calls before. -/
inductive Blames (s : Datapath β) (o : Operation) (t : Datapath β) : Fault → Prop
  | program {cause : Fault} (h : cause.Genuine) : Blames s o t cause
  | refusal {c : Call} {u : Datapath β} {q : Nat} (hcomes : s.ComesTo o c u)
    (hperform : u.perform c = (t, .error (.backendRefused q))) : Blames s o t (.backendRefused q)
  | outcome {u : Datapath β} {q outcome : Nat} (hcomes : s.ComesTo o (.measure q) u)
    (hmeasure : Backend.measure u.backend q = .ok (outcome, t.backend)) (hlt : 1 < outcome) :
    Blames s o t (.invalidMeasurement q outcome)

/-- The fault of a well-formed operation has its cause in the program or in the backend. -/
theorem Sound.blames_of_execute {config : Config} (h : s.Sound config) (hc : config.IsStandard)
    (hβ : Backend.OnlyRefuses β) {o : Operation} (ho : o.WellFormed) {cause : Fault}
    (he : s.execute o = (t, .error cause)) : s.Blames o t cause := by
  cases executes_of_execute he with
  | failed _ hcompute => exact .program (h.genuine_of_compute hc ho hcompute)
  | unresolved hresolve => exact .program ((gives_resolve Fault.admits_genuine _ _).error hresolve)
  | @interrupted pi ops calls _ _ hresolve hissue =>
    obtain ⟨before, c, after, u, rfl, hbefore, hperform⟩ := exists_of_issue_error hissue
    have hcomes : s.ComesTo (.bundle pi ops) c u :=
      ⟨pi, ops, _, before, rfl, hresolve, ⟨after, by simp⟩, hbefore⟩
    rcases blame_of_perform hβ hperform with ⟨q, rfl⟩ | ⟨q, outcome, rfl, rfl, hmeasure, hlt⟩
    · exact .refusal hcomes hperform
    · exact .outcome hcomes hmeasure hlt

/-- Nothing is blamed on an outcome if the backend measures bits. -/
theorem Blames.ne_invalidMeasurement (hβ : Backend.Binary β) {o : Operation} {cause : Fault}
    (h : s.Blames o t cause) (q outcome : Nat) : cause ≠ .invalidMeasurement q outcome := by
  rintro rfl
  cases h with
  | program h => exact h
  | @outcome u _ _ _ hmeasure hlt =>
    have hle : outcome ≤ 1 := by
      have := hβ.measure_le u.backend q
      rwa [hmeasure] at this
    exact Nat.not_lt_of_le hle hlt

end Datapath

/-! ## Machines -/

/-- A program that a text is assembled to without a problem. -/
def IsAssembled (program : List Instruction) : Prop :=
  ∃ source a, assemble source = .ok a ∧ a.succeeded ∧ a.instructions.toList = program

theorem IsAssembled.wellFormed {program : List Instruction} (h : IsAssembled program) :
    WellFormed program := by
  obtain ⟨source, a, ha, -, rfl⟩ := h
  exact wellFormed_of_assemble ha

namespace Machine

/-- An action that installs no instructions but those of assembled programs. -/
def Action.Assembled : Action → Prop
  | .upload program => IsAssembled program
  | .append _ => False
  | _ => True

variable {β : Type} [Backend β] {config : Config} {m m' : Machine β}

/-- A sound machine with a well-formed program, all of whose branches have their label. -/
structure Orderly (m : Machine β) (config : Config) : Prop where
  sound : m.Sound config
  labelled : m.Labelled
  resolved : m.Resolved
  wellFormed : ∀ i ∈ m.program, i.operation.WellFormed

/-- What the error of a step is blamed on: there is no instruction, or its execution fails for the
program or for the backend. It is never a label that is not defined. -/
inductive Blames (m m' : Machine β) : ExecError → Prop
  | outside (h : m.program[m.pc]? = none) : Blames m m' (.pcOutOfRange m.pc m.program.size)
  | fault {i : Instruction} {cause : Fault} (hi : m.program[m.pc]? = some i)
    (h : m.data.Blames i.operation m'.data cause) :
    Blames m m' (.fault m.pc (m.cycle + 1) cause)

omit [Backend β] in
/-- An upload of an assembled program leaves an orderly machine. -/
theorem orderly_of_upload (h : m.Sound config) {program : List Instruction}
    (hp : IsAssembled program) (hu : upload program m = (m', .ok ())) : m'.Orderly config := by
  have hresolved := resolved_of_upload hu
  obtain ⟨labels, hlabels, rfl⟩ := upload_eq_ok.1 hu
  refine ⟨h.reset _ _, labelled_of_check hlabels, hresolved, fun i hi => ?_⟩
  exact (hp.wellFormed.instructions i (by simpa using hi)).operation

theorem Orderly.act (h : m.Orderly config) {a : Action} (ha : a.Assembled) :
    (m.act a).Orderly config := by
  have hne : ∀ i, a ≠ .append i := by
    rintro i rfl
    exact ha
  refine ⟨h.sound.acts h.labelled [a], h.labelled.acts [a], h.resolved.act hne, ?_⟩
  have hkeeps : ∀ m : Machine β, (∀ i ∈ m.program, i.operation.WellFormed) →
      ∀ i ∈ m.step.1.program, i.operation.WellFormed := by
    intro m h
    rwa [m.step_keeps.2.1]
  cases a with
  | upload program =>
    rcases m.act_upload program with e | ⟨labels, -, e⟩ <;> rw [e]
    · exact h.wellFormed
    · exact fun i hi => (ha.wellFormed.instructions i (by simpa using hi)).operation
  | append i => exact ha.elim
  | step => exact hkeeps m h.wellFormed
  | run => exact runFor_induction hkeeps _ h.wellFormed
  | reset => exact fun i hi => absurd hi (by simp [Machine.act, reset])
  | restart | setMaxCycles n => exact h.wellFormed
  | write w =>
    obtain ⟨data, -, e⟩ := m.act_write w
    rw [e]
    exact h.wellFormed

/-- Assembled programs keep a machine orderly. -/
theorem Orderly.acts (h : m.Orderly config) {history : List Action}
    (ha : ∀ a ∈ history, a.Assembled) : (m.acts history).Orderly config := by
  induction history generalizing m with
  | nil => exact h
  | cons a history ih => exact ih (h.act (ha a (by simp))) fun b hb => ha b (by simp [hb])

/-- A step of an orderly machine fails for its program or for its backend only. -/
theorem Orderly.blames_of_step (h : m.Orderly config) (hc : config.IsStandard)
    (hβ : Backend.OnlyRefuses β) {e : ExecError} (hs : m.step = (m', some e)) : m.Blames m' e := by
  have hne := h.resolved.step_ne
  rw [hs] at hne
  cases steps_of_step hs with
  | outside _ hi => exact .outside hi
  | fault _ hi he =>
    have hw := h.wellFormed _ (Array.mem_of_getElem? hi)
    exact .fault hi (h.sound.data.blames_of_execute hc hβ hw he)
  | lost => exact absurd rfl (hne _ _)

/-- What a run fails with, a step on its way fails with. -/
theorem exists_step_of_run {e : ExecError} (h : m.run = (m', .error e)) :
    ∃ n, (m.acts (.replicate n .step)).step = (m', some e) := by
  obtain ⟨n, last, hadvances, hends⟩ := exists_of_run h
  cases hends with
  | failed _ _ hs => exact ⟨n, hadvances.acts_eq ▸ hs⟩

/-- **Only genuine errors surface.** A machine with registers of 32 bits was given an assembled
program, with any history before and behind it in which no other instructions are installed. Then
the error of a step or of a run, which is that of a step on its way, is that there is no
instruction, or a fault that is blamed on the program, or on the backend for what it really did. If
the backend measures bits, as the ideal, the bit-flip and the random backend do, no measurement is
ever invalid. -/
theorem genuine_of_history (hc : config.IsStandard) :
    (∀ (β : Type) [Backend β], Backend.OnlyRefuses β → ∀ backend : β,
      ∃ m₀, make config backend = .ok m₀ ∧ ∀ before program m₁ history, IsAssembled program →
        upload program (m₀.acts before) = (m₁, .ok ()) → (∀ a ∈ history, a.Assembled) →
        (∀ m' e, (m₁.acts history).step = (m', some e) → (m₁.acts history).Blames m' e) ∧
        (∀ m' e, (m₁.acts history).run = (m', .error e) →
          ∃ n, (m₁.acts (history ++ .replicate n .step)).step = (m', some e) ∧
            (m₁.acts (history ++ .replicate n .step)).Blames m' e) ∧
        (Backend.Binary β → ∀ pc cycle q outcome,
          (m₁.acts history).step.2 ≠ some (.fault pc cycle (.invalidMeasurement q outcome)) ∧
          (m₁.acts history).run.2 ≠
            .error (.fault pc cycle (.invalidMeasurement q outcome)))) ∧
    Backend.Binary Ideal ∧ Backend.Binary BitFlip ∧ Backend.Binary Coin := by
  refine ⟨fun β _ hβ backend => ?_, Ideal.binary, BitFlip.binary, Coin.binary⟩
  have hg : 0 < config.generalWidth ∧ config.generalWidth ≤ 64 := by
    rw [hc.general]
    decide
  have hf : 0 < config.floatWidth ∧ config.floatWidth ≤ 64 := by
    rw [hc.floating]
    decide
  obtain ⟨m₀, hmake, hsound, -⟩ := exists_make hg hf backend
  refine ⟨m₀, hmake, fun before program m₁ history hp hu ha => ?_⟩
  have horderly : m₁.Orderly config :=
    orderly_of_upload (hsound.acts (empty_of_make hmake).2 before) hp hu
  have hstep : ∀ n m' e, (m₁.acts (history ++ .replicate n .step)).step = (m', some e) →
      (m₁.acts (history ++ .replicate n .step)).Blames m' e := by
    refine fun n m' e => (horderly.acts fun a h => ?_).blames_of_step hc hβ
    rcases List.mem_append.1 h with h | h
    · exact ha a h
    · rw [(List.mem_replicate.1 h).2]
      trivial
  have hrun : ∀ m' e, (m₁.acts history).run = (m', .error e) →
      ∃ n, (m₁.acts (history ++ .replicate n .step)).step = (m', some e) ∧
        (m₁.acts (history ++ .replicate n .step)).Blames m' e := by
    intro m' e h
    obtain ⟨n, hn⟩ := exists_step_of_run h
    rw [← acts_append] at hn
    exact ⟨n, hn, hstep n m' e hn⟩
  have hfirst : ∀ m' e, (m₁.acts history).step = (m', some e) →
      (m₁.acts history).Blames m' e := by
    simpa using hstep 0
  refine ⟨hfirst, hrun, fun hbinary pc cycle q outcome => ⟨fun h => ?_, fun h => ?_⟩⟩
  · cases hfirst _ _ (Prod.ext rfl h) with
    | fault _ hblames => exact hblames.ne_invalidMeasurement hbinary q outcome rfl
  · obtain ⟨n, -, hn⟩ := hrun _ _ (Prod.ext rfl h)
    cases hn with
    | fault _ hblames => exact hblames.ne_invalidMeasurement hbinary q outcome rfl

/-- A measurement that gives 2 behind an assembled program, on the reference machine. -/
theorem genuine_of_history_of_measure :
    ∃ m₀ m : Machine Recording, make {} { script := [2] } = .ok m₀ ∧
      upload [⟨[], .smis 0 [0]⟩, ⟨[], .bundle 1 [⟨"measure", .single 0⟩]⟩] (m₀.acts []) =
        (m, .ok ()) ∧
      (m.acts [.step]).step.2 = some (.fault 1 2 (.invalidMeasurement 0 2)) ∧
      (m.acts [.step]).Blames (m.acts [.step]).step.1 (.fault 1 2 (.invalidMeasurement 0 2)) := by
  have hw : WellFormed [⟨[], .smis 0 [0]⟩, ⟨[], .bundle 1 [⟨"measure", .single 0⟩]⟩] := by
    decide +kernel
  obtain ⟨a, ha, hnone, hinstructions, -⟩ := assemble_listing hw
  have hp : IsAssembled [⟨[], .smis 0 [0]⟩, ⟨[], .bundle 1 [⟨"measure", .single 0⟩]⟩] :=
    ⟨_, a, ha, by simp [Assembly.succeeded, hnone], hinstructions⟩
  have hβ : Backend.OnlyRefuses Recording :=
    ⟨fun _ _ _ => gives_ok trivial, fun _ _ _ _ => gives_ok trivial, fun _ _ => gives_ok trivial⟩
  obtain ⟨m₀, hmake, hgenuine⟩ := (@genuine_of_history {} ⟨rfl, rfl⟩).1 Recording hβ
    { script := [2] }
  obtain ⟨m, hm⟩ : ∃ m, upload [⟨[], .smis 0 [0]⟩, ⟨[], .bundle 1 [⟨"measure", .single 0⟩]⟩]
      (m₀.acts []) = (m, .ok ()) := by
    cases hmake
    exact ⟨_, rfl⟩
  have hstep : (m.acts [.step]).step.2 = some (.fault 1 2 (.invalidMeasurement 0 2)) := by
    cases hmake
    cases hm
    decide +kernel
  have hassembled : ∀ a ∈ [Action.step], a.Assembled := by simp [Action.Assembled]
  exact ⟨m₀, m, hmake, hm, hstep,
    (hgenuine [] _ m [.step] hp hm hassembled).1 _ _ (Prod.ext rfl hstep)⟩

end Machine

end Eqasm
