import Eqasm.Backend.Ideal
import Eqasm.Proofs.Machine.Dispatch
import Eqasm.Proofs.Machine.Lockstep
import Eqasm.Proofs.Machine.Reachable

/-!
# Machines that start afresh

What a machine does behind an accepted upload depends on its configuration, its memory and its
backend, and on nothing else that it has been through (`Machine.alike_of_upload`): registers of one
shape are the same once they are cleared (`Datapath.Regular.same_clear`), and datapaths with the
same content, results and backend go on in the same way (`Datapath.lockstep_same`).
-/

namespace Eqasm

/-! ## Datapaths -/

namespace Datapath

variable {β : Type} {config : Config} {s t : Datapath β}

/-- The datapaths have the same content, the same results and the same backend. -/
structure Same (s t : Datapath β) : Prop extends Agrees s t where
  results : s.results = t.results
  backend : s.backend = t.backend

/-- Cleared registers and results of one configuration are the same, whatever was in them. -/
theorem Regular.same_clear (hs : s.Regular config) (ht : t.Regular config)
    (hmemory : s.memory.Agrees t.memory) (hbackend : s.backend = t.backend) :
    Same s.restart.clear t.restart.clear where
  general := Except.ok.inj (hs.general.symm.trans ht.general)
  floating := Except.ok.inj (hs.floating.symm.trans ht.floating)
  targets := by
    show s.targets.clear = t.targets.clear
    rw [TargetRegisters.clear_eq_unset hs.targets, TargetRegisters.clear_eq_unset ht.targets]
  memory := hmemory
  flags := rfl
  results := by
    simp only [Datapath.restart, Datapath.clear, Array.map_const', hs.results_size, ht.results_size]
  backend := hbackend

variable [Backend β]

/-- The same backend gives the same reply. -/
theorem Same.perform (h : s.Same t) (c : Call) : ∃ s' t' r, s.perform c = (s', r) ∧
    t.perform c = (t', r) ∧ s'.Same t' := by
  have hanswer : Backend.answer t.backend c = Backend.answer s.backend c := by rw [h.backend]
  cases ha : Backend.answer s.backend c with
  | error cause =>
    exact ⟨s, t, _, perform_of_refusal ha, perform_of_refusal (hanswer.trans ha), h⟩
  | ok answer =>
    obtain ⟨r, b⟩ := answer
    refine ⟨_, _, _, perform_of_answer ha, perform_of_answer (hanswer.trans ha), ?_⟩
    exact { h with results := congrArg r.record h.results, backend := rfl }

/-- The same calls are made, with the same effect. -/
theorem Same.issue (h : s.Same t) (calls : List Call) : ∃ s' t' r, s.issue calls = (s', r) ∧
    t.issue calls = (t', r) ∧ s.made calls = t.made calls ∧ s'.Same t' := by
  induction calls generalizing s t with
  | nil => exact ⟨s, t, _, rfl, rfl, rfl, h⟩
  | cons c calls ih =>
    obtain ⟨s', t', r, hs, ht, hnext⟩ := h.perform c
    simp only [Datapath.issue, Datapath.made, hs, ht]
    cases r with
    | error cause => exact ⟨s', t', _, rfl, rfl, rfl, hnext⟩
    | ok =>
      obtain ⟨u, v, r, hu, hv, hmade, hlast⟩ := ih hnext
      exact ⟨u, v, r, hu, hv, congrArg _ hmade, hlast⟩

theorem Same.execute_bundle (h : s.Same t) (pi : UInt32) (ops : List MicroOp) :
    ∃ s' t' r, s.execute (.bundle pi ops) = (s', r) ∧ t.execute (.bundle pi ops) = (t', r) ∧
      s.calls (.bundle pi ops) = t.calls (.bundle pi ops) ∧ s'.Same t' := by
  simp only [execute, Datapath.calls, h.targets]
  cases resolve t.targets ops with
  | error cause => exact ⟨s, t, _, rfl, rfl, rfl, h⟩
  | ok calls =>
    obtain ⟨s', t', r, hs, ht, hmade, hnext⟩ := h.issue calls
    simp only [hs, ht]
    cases r with
    | error cause => exact ⟨s', t', _, rfl, rfl, hmade, hnext⟩
    | ok => exact ⟨s', t', _, rfl, rfl, hmade, hnext⟩

/-- **The same datapath takes the same course.** -/
theorem lockstep_same : Lockstep (Same : Datapath β → Datapath β → Prop) fun _ => True := by
  refine lockstep_of_agrees (fun h => h.toAgrees) ?_ (fun h _ _ => h.results)
    (fun h => h.execute_bundle) ?_ (fun h => { h with toAgrees := h.toAgrees.clear })
  · intro s t s' t' h hagrees heffect heffect'
    obtain ⟨hresults, hbackend⟩ := heffect.results_backend
    obtain ⟨hresults', hbackend'⟩ := heffect'.results_backend
    refine ⟨hagrees, ?_, ?_⟩
    · rw [hresults, hresults', h.results]
    · rw [hbackend, hbackend', h.backend]
  · intro s t h
    exact { h with
      toAgrees := h.toAgrees.restart
      results := congrArg (Array.map fun _ => 0) h.results }

end Datapath

/-! ## Machines -/

namespace Machine

variable {β : Type} [Backend β]

/-- Nothing but the user changes the level of the log. -/
theorem verbose_acts (m : Machine β) (history : List Action) :
    (m.acts history).verbose = m.verbose := by
  refine acts_induction (P := fun n => n.verbose = m.verbose) ?_ ?_ ?_ ?_ ?_ ?_ ?_ rfl history
  · exact fun _ _ _ h _ => h
  · exact fun _ _ _ h _ => h
  · intro n h
    rcases hn : n.step with ⟨n', e⟩
    cases steps_of_step hn with
    | _ => exact h
  · exact fun _ h => h
  · exact fun _ h => h
  · exact fun _ _ h => h
  · exact fun _ _ h _ => h

/-- **An accepted upload forgets the past.** Two machines with the same configuration, the same
bytes in memory and the same backend refuse the same programs, for the same reason, and are as
before then. Behind a program that they accept, with which memory and backend stay what they were,
they go through every history in the same way: all answers, calls and states are the same, whatever
the machines have been through before. -/
theorem alike_of_upload {m m' : Machine β} (hm : m.Reachable) (hm' : m'.Reachable)
    (hconfig : m.config = m'.config) (hmemory : m.data.memory.Agrees m'.data.memory)
    (hbackend : m.data.backend = m'.data.backend) (program : List Instruction) :
    (∃ e, upload program m = (m, .error e) ∧ upload program m' = (m', .error e)) ∨
    ∃ u u', upload program m = (u, .ok ()) ∧ upload program m' = (u', .ok ()) ∧
      (u.data.memory = m.data.memory ∧ u.data.backend = m.data.backend) ∧
      (u'.data.memory = m'.data.memory ∧ u'.data.backend = m'.data.backend) ∧
      ∀ history, Alike Datapath.Same (u.acts history) (u'.acts history) ∧
        u.answers history = u'.answers history ∧ u.handed history = u'.handed history ∧
        (u.acts history).verbose = m.verbose ∧ (u'.acts history).verbose = m'.verbose := by
  have hcheck : m'.check program = m.check program := by rw [check, check, hconfig]
  cases hc : m.check program with
  | error e =>
    exact .inl ⟨e, upload_eq_error.2 ⟨rfl, hc⟩, upload_eq_error.2 ⟨rfl, hcheck.trans hc⟩⟩
  | ok labels =>
    have hu := upload_eq_ok.2 ⟨labels, hc, rfl⟩
    have hu' := upload_eq_ok.2 ⟨labels, hcheck.trans hc, rfl⟩
    refine .inr ⟨_, _, hu, hu', ⟨rfl, rfl⟩, ⟨rfl, rfl⟩, fun history => ?_⟩
    have hregular' := hm'.regular.data
    rw [← hconfig] at hregular'
    have hsame := hm.regular.data.same_clear hregular' hmemory hbackend
    have halike : Alike Datapath.Same { m.reset with program := program.toArray, labels }
        { m'.reset with program := program.toArray, labels } :=
      ⟨hconfig, rfl, rfl, hsame, congrArg Config.startAddress hconfig, rfl, rfl⟩
    have hinstalls : ∀ a ∈ history, a.Installs fun _ => True := by
      intro a _
      cases a <;> simp [Action.Installs]
    obtain ⟨hacts, hanswers, hhanded⟩ :=
      halike.acts Datapath.lockstep_same (fun _ _ => trivial) hinstalls
    exact ⟨hacts, hanswers, hhanded, verbose_acts _ history, verbose_acts _ history⟩

/-- One machine has loaded a number and halted, the other has failed on a branch to nowhere. -/
theorem alike_of_upload_of_branch :
    ∃ m m' : Machine Ideal, m.halted = true ∧ m'.halted = false ∧ m.program.size ≠ m'.program.size ∧
      ∃ u u', upload [⟨[], .not 0 0⟩, ⟨[], .stop⟩] m = (u, .ok ()) ∧
        upload [⟨[], .not 0 0⟩, ⟨[], .stop⟩] m' = (u', .ok ()) ∧
        Alike Datapath.Same (u.acts [.run]) (u'.acts [.run]) := by
  obtain ⟨m₀, hmake⟩ : ∃ m : Machine Ideal,
      make { generalCount := 1, floatCount := 1, memorySize := 4 } ⟨⟩ = .ok m := ⟨_, rfl⟩
  obtain ⟨m, hm⟩ : ∃ m, (m₀.act (.upload [⟨[], .ldi 0 5⟩, ⟨[], .stop⟩])).act .run = m := ⟨_, rfl⟩
  obtain ⟨m', hm'⟩ : ∃ m, (m₀.act (.append ⟨[], .br .always "nowhere"⟩)).act .step = m := ⟨_, rfl⟩
  have hreachable : m.Reachable := hm ▸ .act (.act (.make hmake) _) _
  have hreachable' : m'.Reachable := hm' ▸ .act (.act (.make hmake) _) _
  have hpast : m.halted = true ∧ m'.halted = false ∧ m.program.size ≠ m'.program.size := by
    cases hmake
    cases hm
    cases hm'
    decide +kernel
  have hsame : m.config = m'.config ∧ m.data.memory.Agrees m'.data.memory := by
    cases hmake
    cases hm
    cases hm'
    exact ⟨by decide +kernel, by decide +kernel, by decide +kernel⟩
  have haccepted : (upload [⟨[], .not 0 0⟩, ⟨[], .stop⟩] m).2.isOk = true := by
    cases hmake
    cases hm
    decide +kernel
  rcases alike_of_upload hreachable hreachable' hsame.1 hsame.2 rfl
      [⟨[], .not 0 0⟩, ⟨[], .stop⟩] with ⟨e, hu, -⟩ | ⟨u, u', hu, hu', -, -, hsince⟩
  · rw [hu] at haccepted
    cases haccepted
  · exact ⟨m, m', hpast.1, hpast.2.1, hpast.2.2, u, u', hu, hu', (hsince [.run]).1⟩

end Machine

end Eqasm
