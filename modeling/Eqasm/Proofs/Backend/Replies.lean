import Eqasm.Backend
import Eqasm.Proofs.Except
import Mathlib.Data.List.Induction

/-!
# Replies of backends

A backend that is handed calls one after the other answers them until it refuses one or gives an
outcome other than 0 and 1 (`Backend.serve`, `Backend.Serves`). The results that are kept of such
replies are the last usable outcome for each qubit (`Reply.getElem?_foldl_record_of_lastOutcome`).
-/

namespace Eqasm

/-- A call that a backend has answered, with the outcome if it was a measurement. -/
inductive Reply where
  | gate (name : String) (qubit : Nat)
  | pairGate (name : String) (a b : Nat)
  | measure (qubit outcome : Nat)
  deriving DecidableEq, Repr

namespace Reply

/-- The call that was answered. -/
def call : Reply → Call
  | gate name q => .gate name q
  | pairGate name p q => .pairGate name p q
  | measure q _ => .measure q

/-- Every outcome should be 0 or 1. -/
def check : Reply → Except Fault Unit
  | measure q n => if n ≤ 1 then .ok () else .error (.invalidMeasurement q n)
  | _ => .ok ()

/-- The results of measurements behind a reply. -/
def record (results : Array Nat) : Reply → Array Nat
  | measure q n => if n ≤ 1 then results.setIfInBounds q n else results
  | _ => results

theorem check_eq_error {r : Reply} {cause : Fault} :
    r.check = .error cause ↔ ∃ q n, r = measure q n ∧ 1 < n ∧ cause = .invalidMeasurement q n := by
  cases r with
  | gate name q | pairGate name p q => simp [check]
  | measure q n =>
    by_cases hn : n ≤ 1
    · simp only [check, if_pos hn]
      exact ⟨fun h => (nomatch h), fun ⟨_, _, h, hlt, _⟩ => by cases h; omega⟩
    · simp only [check, if_neg hn, Except.error.injEq]
      refine ⟨fun h => ⟨q, n, rfl, by omega, h.symm⟩, fun ⟨_, _, h, _, hcause⟩ => ?_⟩
      cases h
      exact hcause.symm

/-! ## Outcomes -/

/-- The last reply with an outcome of 0 or 1 for qubit `q` has the outcome `n`. -/
def LastOutcome (q n : Nat) (replies : List Reply) : Prop :=
  n ≤ 1 ∧ ∃ before after, replies = before ++ measure q n :: after ∧
    ∀ k ≤ 1, measure q k ∉ after

/-- No reply has an outcome of 0 or 1 for qubit `q`. -/
def NoOutcome (q : Nat) (replies : List Reply) : Prop :=
  ∀ k ≤ 1, measure q k ∉ replies

theorem size_record (results : Array Nat) (r : Reply) : (r.record results).size = results.size := by
  cases r with
  | gate name q | pairGate name p q => rfl
  | measure q n =>
    rw [record]
    split <;> simp

theorem size_foldl_record (results : Array Nat) (replies : List Reply) :
    (replies.foldl record results).size = results.size := by
  induction replies generalizing results with
  | nil => rfl
  | cons r replies ih => rw [List.foldl_cons, ih, size_record]

/-- A reply that is no outcome for a qubit leaves its result alone. -/
theorem getElem?_record_of_noOutcome {results : Array Nat} {q : Nat} {r : Reply}
    (h : ∀ k ≤ 1, r ≠ measure q k) : (r.record results)[q]? = results[q]? := by
  cases r with
  | gate name p | pairGate name p p' => rfl
  | measure p n =>
    rw [record]
    split
    · rename_i hn
      have hne : p ≠ q := by
        rintro rfl
        exact h n hn rfl
      rw [Array.getElem?_setIfInBounds_ne hne]
    · rfl

theorem getElem?_foldl_record_of_noOutcome {results : Array Nat} {q : Nat} {replies : List Reply}
    (h : NoOutcome q replies) : (replies.foldl record results)[q]? = results[q]? := by
  induction replies generalizing results with
  | nil => rfl
  | cons r replies ih =>
    have hr : ∀ k ≤ 1, r ≠ measure q k := fun k hk e => h k hk (by simp [e])
    have hrest : NoOutcome q replies := fun k hk hmem => h k hk (List.mem_cons_of_mem _ hmem)
    rw [List.foldl_cons, ih hrest, getElem?_record_of_noOutcome hr]

/-- **Results are the last outcomes.** -/
theorem getElem?_foldl_record_of_lastOutcome {results : Array Nat} {q n : Nat}
    {replies : List Reply} (h : LastOutcome q n replies) (hq : q < results.size) :
    (replies.foldl record results)[q]? = some n := by
  obtain ⟨hn, before, after, rfl, hafter⟩ := h
  have hsize : q < (before.foldl record results).size := by
    rw [size_foldl_record]
    exact hq
  rw [List.foldl_append, List.foldl_cons, getElem?_foldl_record_of_noOutcome hafter, record,
    if_pos hn, Array.getElem?_setIfInBounds_self_of_lt hsize]

/-- There is a last outcome for a qubit or there is none at all. -/
theorem exists_lastOutcome (q : Nat) (replies : List Reply) :
    (∃ n, LastOutcome q n replies) ∨ NoOutcome q replies := by
  induction replies using List.reverseRecOn with
  | nil => exact .inr fun _ _ => List.not_mem_nil
  | append_singleton replies r ih =>
    by_cases hr : ∃ k ≤ 1, r = measure q k
    · obtain ⟨k, hk, rfl⟩ := hr
      exact .inl ⟨k, hk, replies, [], rfl, fun _ _ => List.not_mem_nil⟩
    · have hr : ∀ k ≤ 1, measure q k ≠ r := fun k hk e => hr ⟨k, hk, e.symm⟩
      rcases ih with ⟨n, hn, before, after, rfl, hafter⟩ | hnone
      · refine .inl ⟨n, hn, before, after ++ [r], by simp, fun k hk hmem => ?_⟩
        rcases List.mem_append.1 hmem with hmem | hmem
        · exact hafter k hk hmem
        · exact hr k hk (List.mem_singleton.1 hmem)
      · refine .inr fun k hk hmem => ?_
        rcases List.mem_append.1 hmem with hmem | hmem
        · exact hnone k hk hmem
        · exact hr k hk (List.mem_singleton.1 hmem)

end Reply

namespace Backend

variable {β : Type} [Backend β]

/-! ## Answers -/

/-- What a backend makes of a call. -/
def answer (b : β) : Call → Except Fault (Reply × β)
  | .gate name q => do return (.gate name q, ← gate b name q)
  | .pairGate name p q => do return (.pairGate name p q, ← pairGate b name p q)
  | .measure q => do
    let (n, b) ← measure b q
    return (.measure q n, b)

theorem call_of_answer {b b' : β} {c : Call} {r : Reply} (h : answer b c = .ok (r, b')) :
    r.call = c := by
  cases c with
  | gate name q | pairGate name p q | measure q =>
    obtain ⟨_, -, e⟩ := except_bind_eq_ok.1 h
    cases e
    rfl

/-- What a backend makes of calls in order: the replies, the backend behind them and how the calls
end. It is asked for no call behind one that it refuses or answers with an outcome other than 0
and 1. -/
def serve (b : β) : List Call → List Reply × β × Except Fault Unit
  | [] => ([], b, .ok ())
  | c :: calls =>
    match answer b c with
    | .error cause => ([], b, .error cause)
    | .ok (r, b) =>
      match r.check with
      | .error cause => ([r], b, .error cause)
      | .ok () =>
        let (replies, last, e) := serve b calls
        (r :: replies, last, e)

section

variable {b b' : β} {c : Call} {r : Reply} {cause : Fault}

theorem serve_of_refusal (h : answer b c = .error cause) (calls : List Call) :
    serve b (c :: calls) = ([], b, .error cause) := by
  rw [serve, h]

theorem serve_of_invalid (h : answer b c = .ok (r, b')) (hr : r.check = .error cause)
    (calls : List Call) : serve b (c :: calls) = ([r], b', .error cause) := by
  simp only [serve, h, hr]

theorem serve_of_valid (h : answer b c = .ok (r, b')) (hr : r.check = .ok ())
    (calls : List Call) : serve b (c :: calls) =
      (r :: (serve b' calls).1, (serve b' calls).2.1, (serve b' calls).2.2) := by
  simp only [serve, h, hr]

end

/-- The backend gives these replies, one after the other. -/
inductive Answers : β → List Reply → β → Prop
  | nil (b : β) : Answers b [] b
  | cons {b b' last : β} {r : Reply} {replies : List Reply} (h : answer b r.call = .ok (r, b'))
    (hr : Answers b' replies last) : Answers b (r :: replies) last

/-- The ways in which calls can end. Of the calls to be made the backend receives those up to the
end. -/
inductive Serves (b : β) (calls : List Call) :
    List Call → List Reply → β → Except Fault Unit → Prop
  /-- All calls are answered, and every outcome is 0 or 1. -/
  | answered {replies : List Reply} {last : β} (h : Answers b replies last)
    (hcalls : replies.map Reply.call = calls) (hvalid : ∀ r ∈ replies, r.check = .ok ()) :
    Serves b calls calls replies last (.ok ())
  /-- The first outcome that is neither 0 nor 1 is the last reply. -/
  | invalid {replies : List Reply} {last : β} {q n : Nat}
    (h : Answers b (replies ++ [.measure q n]) last)
    (hcalls : replies.map Reply.call ++ [.measure q] <+: calls)
    (hvalid : ∀ r ∈ replies, r.check = .ok ()) (hn : 1 < n) :
    Serves b calls (replies.map Reply.call ++ [.measure q]) (replies ++ [.measure q n]) last
      (.error (.invalidMeasurement q n))
  /-- The backend refuses a call. -/
  | refused {replies : List Reply} {last : β} {c : Call} {cause : Fault}
    (h : Answers b replies last) (hcalls : replies.map Reply.call ++ [c] <+: calls)
    (hvalid : ∀ r ∈ replies, r.check = .ok ()) (hc : answer last c = .error cause) :
    Serves b calls (replies.map Reply.call ++ [c]) replies last (.error cause)

/-- Calls behind one that was answered with a usable reply. -/
theorem Serves.cons {b b' last : β} {calls received : List Call} {r : Reply} {replies : List Reply}
    {e : Except Fault Unit} (h : answer b r.call = .ok (r, b')) (hr : r.check = .ok ())
    (hs : Serves b' calls received replies last e) :
    Serves b (r.call :: calls) (r.call :: received) (r :: replies) last e := by
  cases hs with
  | answered hg hcalls hvalid =>
    refine .answered (.cons h hg) (by rw [List.map_cons, hcalls]) ?_
    exact List.forall_mem_cons.2 ⟨hr, hvalid⟩
  | @invalid replies _ q n hg hcalls hvalid hn =>
    have hprefix : (r :: replies).map Reply.call ++ [.measure q] <+: r.call :: calls :=
      List.cons_prefix_cons.2 ⟨rfl, hcalls⟩
    have hfirst : Answers b (r :: replies ++ [.measure q n]) last := .cons h hg
    exact .invalid hfirst hprefix (List.forall_mem_cons.2 ⟨hr, hvalid⟩) hn
  | @refused replies _ c cause hg hcalls hvalid hc =>
    have hprefix : (r :: replies).map Reply.call ++ [c] <+: r.call :: calls :=
      List.cons_prefix_cons.2 ⟨rfl, hcalls⟩
    exact .refused (.cons h hg) hprefix (List.forall_mem_cons.2 ⟨hr, hvalid⟩) hc

/-- Every reply is one to a call that was to be made. -/
theorem Serves.call_mem {b last : β} {calls received : List Call} {replies : List Reply}
    {e : Except Fault Unit} (h : Serves b calls received replies last e) {r : Reply}
    (hr : r ∈ replies) : r.call ∈ calls := by
  cases h with
  | answered _ hcalls => exact hcalls ▸ List.mem_map_of_mem hr
  | @invalid replies _ q n _ hcalls =>
    have hmap : (replies ++ [Reply.measure q n]).map Reply.call =
        replies.map Reply.call ++ [.measure q] := by
      rw [List.map_append]
      rfl
    exact hcalls.subset (hmap ▸ List.mem_map_of_mem hr)
  | refused _ hcalls =>
    exact hcalls.subset (List.mem_append_left _ (List.mem_map_of_mem hr))

/-- A qubit that is not measured has no outcome. -/
theorem Serves.noOutcome {b last : β} {calls received : List Call} {replies : List Reply}
    {e : Except Fault Unit} (h : Serves b calls received replies last e) {q : Nat}
    (hq : .measure q ∉ calls) : Reply.NoOutcome q replies :=
  fun _ _ hmem => hq (h.call_mem hmem)

/-- If all calls go well, every qubit that is measured has an outcome. -/
theorem Serves.exists_lastOutcome {b last : β} {calls received : List Call}
    {replies : List Reply} (h : Serves b calls received replies last (.ok ())) {q : Nat}
    (hq : .measure q ∈ calls) : ∃ n, Reply.LastOutcome q n replies := by
  cases h with
  | answered _ hcalls hvalid =>
    refine (Reply.exists_lastOutcome q replies).resolve_right fun hnone => ?_
    rw [← hcalls] at hq
    obtain ⟨r, hr, hcall⟩ := List.mem_map.1 hq
    obtain ⟨n, rfl⟩ : ∃ n, r = .measure q n := by
      cases r <;> cases hcall
      exact ⟨_, rfl⟩
    have hcheck := hvalid _ hr
    by_cases hn : n ≤ 1
    · exact hnone n hn hr
    · simp [Reply.check, hn] at hcheck

end Backend

end Eqasm
