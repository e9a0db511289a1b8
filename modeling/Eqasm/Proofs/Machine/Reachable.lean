import Eqasm.Proofs.Machine.Sound

/-!
# Machines that can be reached

A user comes from a new machine to others by actions, and by changes to what lies open: measurement
results, backend and the level of the log (`Machine.Reachable`). The shape of all these machines is
that of a new machine with the same configuration (`Machine.Regular`): cleared registers, unset
target registers and the number of results are what they were in the beginning, and the label table
describes the program.
-/

namespace Eqasm

/-! ## Banks and target registers -/

theorem Bank.clear_eq (b : Bank) : b.clear = { b with cells := .replicate b.size b.blank } := by
  rw [clear, Array.map_const', Bank.size]

theorem Bank.clear_clear (b : Bank) : b.clear.clear = b.clear := by
  simp only [clear_eq, Bank.size, Array.size_replicate]

/-- A write is forgotten when the bank is cleared. -/
theorem Bank.clear_of_write {b b' : Bank} {i : Nat} {c : Cell} (h : b.write i c = .ok b') :
    b'.clear = b.clear := by
  obtain ⟨-, -, rfl⟩ := write_eq_ok.1 h
  simp only [clear_eq, Bank.size, Array.size_setIfInBounds]

/-- A new bank is clear. -/
theorem Bank.clear_of_make {name : String} {count width : Nat} {b : Bank}
    (h : make name count width = .ok b) : b.clear = b := by
  obtain ⟨blank, -, e⟩ := except_bind_eq_ok.1 h
  cases e
  simp only [clear_eq, Bank.size, Array.size_replicate]

theorem TargetRegisters.clear_eq_unset {t : TargetRegisters} {singles pairs capacity qubits : Nat}
    (h : t.Sound singles pairs capacity qubits) :
    t.clear = unset singles pairs capacity qubits := by
  rw [clear, unset, Array.map_const', Array.map_const', h.singles_size, h.pairs_size, h.capacity_eq,
    h.qubits_eq]

/-! ## Datapaths -/

namespace Datapath

variable {β : Type} {config : Config}

/-- Every write keeps the lists in target registers sound. -/
theorem Effect.targets_sound {s t : Datapath β} {singles pairs capacity qubits : Nat}
    (he : s.Effect t) (h : s.targets.Sound singles pairs capacity qubits) :
    t.targets.Sound singles pairs capacity qubits := by
  cases he with
  | single hw => exact h.setSingle hw
  | pair hw => exact h.setPair hw
  | _ => exact h

/-- The datapath has the shape that the configuration gives it. -/
structure Regular (s : Datapath β) (config : Config) : Prop where
  general : Bank.make "r" config.generalCount config.generalWidth = .ok s.general.clear
  floating : Bank.make "f" config.floatCount config.floatWidth = .ok s.floating.clear
  targets : s.targets.Sound config.singleCount config.pairCount config.targetCapacity config.qubits
  results_size : s.results.size = config.qubits

variable {s t : Datapath β}

theorem Regular.effect (h : s.Regular config) (he : s.Effect t) : t.Regular config := by
  have htargets := he.targets_sound h.targets
  cases he with
  | none | flags | byte | word | image | single | pair => exact { h with targets := htargets }
  | general hw => exact { h with general := Bank.clear_of_write hw ▸ h.general }
  | floating hw => exact { h with floating := Bank.clear_of_write hw ▸ h.floating }
  | clearGeneral =>
    exact { h with general := h.general.trans (congrArg _ s.general.clear_clear.symm) }
  | clearFloating =>
    exact { h with floating := h.floating.trans (congrArg _ s.floating.clear_clear.symm) }

theorem Regular.restart (h : s.Regular config) : s.restart.Regular config :=
  { h with results_size := by simpa [Datapath.restart] using h.results_size }

theorem Regular.clear (h : s.Regular config) : s.clear.Regular config where
  general := h.general.trans (congrArg _ s.general.clear_clear.symm)
  floating := h.floating.trans (congrArg _ s.floating.clear_clear.symm)
  targets := h.targets.clear
  results_size := h.results_size

theorem Regular.touches (h : s.Regular config) {calls : List Call} (ht : Touches calls s t) :
    t.Regular config := by
  have hsize := ht.results_size.trans h.results_size
  rw [ht.others]
  exact { h with results_size := hsize }

theorem Regular.execute [Backend β] (h : s.Regular config) {o : Operation} {r : Except Fault Flow}
    (he : s.execute o = (t, r)) : t.Regular config := by
  cases executes_of_execute he with
  | failed | unresolved => exact h
  | done _ hcompute => exact h.effect (effect_of_compute hcompute)
  | interrupted _ hissue | issued _ hissue => exact h.touches (touches_of_issue hissue)

end Datapath

/-! ## Machines -/

namespace Machine

variable {β : Type} [Backend β]

/-- A machine that a user can come to: a new one, or one behind an action or behind a change of the
measurement results, of the backend or of the level of the log. -/
inductive Reachable : Machine β → Prop
  | make {config : Config} {backend : β} {m : Machine β} (h : make config backend = .ok m) :
    Reachable m
  | act {m : Machine β} (h : Reachable m) (a : Action) : Reachable (m.act a)
  | results {m : Machine β} (h : Reachable m) (results : Array Nat)
    (hsize : results.size = m.data.results.size) :
    Reachable { m with data := { m.data with results } }
  | backend {m : Machine β} (h : Reachable m) (backend : β) :
    Reachable { m with data := { m.data with backend } }
  | verbose {m : Machine β} (h : Reachable m) (verbose : Bool) : Reachable { m with verbose }

omit [Backend β] in
/-- The machine has the shape that its configuration gives it. -/
structure Regular (m : Machine β) : Prop where
  data : m.data.Regular m.config
  labelled : m.Labelled

variable {m : Machine β}

theorem Reachable.acts (h : m.Reachable) (history : List Action) : (m.acts history).Reachable := by
  induction history generalizing m with
  | nil => exact h
  | cons a history ih => exact ih (h.act a)

omit [Backend β] in
theorem regular_of_make {config : Config} {backend : β} (h : make config backend = .ok m) :
    m.Regular := by
  have hlabelled := (empty_of_make h).2
  obtain ⟨general, hgeneral, h⟩ := except_bind_eq_ok.1 h
  obtain ⟨floating, hfloating, h⟩ := except_bind_eq_ok.1 h
  cases h
  refine ⟨⟨?_, ?_, TargetRegisters.sound_unset _ _ _ _, by simp⟩, hlabelled⟩
  · rw [Bank.clear_of_make hgeneral]
    exact hgeneral
  · rw [Bank.clear_of_make hfloating]
    exact hfloating

theorem Regular.step (h : m.Regular) : m.step.1.Regular := by
  have hlabelled := h.labelled.step
  rcases hm : m.step with ⟨m', e⟩
  rw [hm] at hlabelled
  cases steps_of_step hm with
  | rest | outside => exact h
  | fault _ _ he | next _ _ he | stop _ _ he | jump _ _ he | lost _ _ he =>
    exact ⟨h.data.execute he, hlabelled⟩

theorem Regular.acts (h : m.Regular) (history : List Action) : (m.acts history).Regular := by
  refine acts_induction ?_ ?_ ?_ ?_ ?_ ?_ ?_ h history
  · exact fun _ _ _ h hcheck => ⟨h.data.restart.clear, labelled_of_check hcheck⟩
  · exact fun _ _ _ h hadd => ⟨h.data, h.labelled.append hadd⟩
  · exact fun _ h => h.step
  · exact fun _ h => ⟨h.data.restart, h.labelled⟩
  · exact fun _ h => ⟨h.data.restart.clear, LabelTable.describes_empty⟩
  · exact fun _ _ h => ⟨{ h.data with }, h.labelled⟩
  · exact fun _ _ h he => ⟨h.data.effect he, h.labelled⟩

/-- **Every machine that can be reached has the shape that its configuration gives it.** -/
theorem Reachable.regular (h : m.Reachable) : m.Regular := by
  induction h with
  | make h => exact regular_of_make h
  | act _ a ih => exact ih.acts [a]
  | results _ results hsize ih =>
    exact ⟨{ ih.data with results_size := hsize.trans ih.data.results_size }, ih.labelled⟩
  | backend _ backend ih => exact ⟨{ ih.data with }, ih.labelled⟩
  | verbose _ verbose ih => exact ⟨ih.data, ih.labelled⟩

end Machine

end Eqasm
