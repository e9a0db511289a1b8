import Eqasm.Proofs.Machine.History

/-!
# Notes on a history

What is noted of the operations that are executed may be forgotten whenever flags and results are:
with a restart, a reset or an accepted upload (`Machine.notesSince`). What is kept by the
operations, restarts, resets and writes as the notes grow, is kept by every history
(`Machine.notesSince_induction`).
-/

namespace Eqasm.Machine

variable {α β : Type} [Backend β]

/-- Whether an action clears flags and results. -/
def clears (m : Machine β) : Action → Bool
  | .upload program => (upload program m).2.isOk
  | .restart | .reset => true
  | .append _ | .step | .run | .setMaxCycles _ | .write _ => false

/-- The notes behind an action. -/
def notesBehind (note : Datapath β → Operation → List α) (m : Machine β) (notes : List α)
    (a : Action) : List α :=
  (if m.clears a then [] else notes) ++ m.notesOf note a

/-- The notes behind a history. -/
def notesSince (note : Datapath β → Operation → List α) (m : Machine β) (notes : List α) :
    List Action → List α
  | [] => notes
  | a :: history => (m.act a).notesSince note (m.notesBehind note notes a) history

section

variable {note : Datapath β → Operation → List α} {P : List α → Datapath β → Prop}

theorem notes_step (hexecute : ∀ notes s o, P notes s → P (notes ++ note s o) (s.execute o).1)
    {notes : List α} {m : Machine β} (h : P notes m.data) :
    P (notes ++ m.stepNotes note) m.step.1.data := by
  rcases hm : m.step with ⟨m', e⟩
  rw [stepNotes]
  cases steps_of_step hm with
  | rest hh => simpa [hh] using h
  | outside hh hi => simpa [hh, hi] using h
  | @fault i _ _ hh hi he | @next i _ hh hi he | @stop i _ hh hi he | @jump i _ _ _ hh hi he
  | @lost i _ _ hh hi he =>
    have hnext := hexecute notes m.data i.operation h
    rw [he] at hnext
    simpa [hh, hi] using hnext

theorem notes_runFor (hexecute : ∀ notes s o, P notes s → P (notes ++ note s o) (s.execute o).1)
    (n : Nat) {notes : List α} {m : Machine β} (h : P notes m.data) :
    P (notes ++ runForNotes note n m) (runFor n m).1.data := by
  induction n generalizing notes m with
  | zero => simpa [runForNotes, runFor] using h
  | succ n ih =>
    have hstep := notes_step hexecute h
    rw [runFor, runForNotes]
    split
    · simpa using h
    · rcases hm : m.step with ⟨m', _ | e⟩
      all_goals rw [hm] at hstep
      · simpa only [List.append_assoc] using ih hstep
      · simpa only [List.append_nil] using hstep

/-- **What is kept while the notes grow, is kept by every history.** -/
theorem notesSince_induction
    (hexecute : ∀ notes s o, P notes s → P (notes ++ note s o) (s.execute o).1)
    (hrestart : ∀ notes s, P notes s → P [] s.restart)
    (hclear : ∀ notes s, P notes s → P notes s.clear)
    (hwrite : ∀ notes s w, P notes s → P notes (Datapath.write w s).1)
    {notes : List α} {m : Machine β} (h : P notes m.data) (history : List Action) :
    P (m.notesSince note notes history) (m.acts history).data := by
  induction history generalizing notes m with
  | nil => exact h
  | cons a history ih =>
    refine ih ?_
    cases a with
    | upload program =>
      rw [notesBehind, clears, notesOf, List.append_nil, act]
      rcases hu : upload program m with ⟨m', e | ⟨⟩⟩
      · obtain ⟨rfl, -⟩ := upload_eq_error.1 hu
        exact h
      · obtain ⟨labels, -, rfl⟩ := upload_eq_ok.1 hu
        exact hclear _ _ (hrestart _ _ h)
    | append i =>
      rw [notesBehind, clears, notesOf, List.append_nil]
      rcases m.act_append i with e | ⟨labels, -, e⟩ <;> rw [e] <;> exact h
    | step => exact notes_step hexecute h
    | run => exact notes_runFor hexecute _ h
    | restart => exact hrestart _ _ h
    | reset => exact hclear _ _ (hrestart _ _ h)
    | setMaxCycles n =>
      rw [notesBehind, clears, notesOf, List.append_nil]
      exact h
    | write w =>
      rw [notesBehind, clears, notesOf, List.append_nil]
      exact hwrite _ _ w h

end

end Eqasm.Machine
