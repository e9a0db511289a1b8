import Eqasm.Memory

/-!
# Memories as runs

The contents of a memory are listed as runs of neighbouring bytes. `Memory.shown` reads such a
listing back. Main statements: what is read back is the byte of every address
(`Memory.shown_runs`), and the runs are as long as they can be (`Memory.apart_runs`), so that a
memory has one listing however its bytes came there.
-/

namespace Eqasm.Memory

/-- The byte that a listing shows at an address, zero outside of its runs. -/
def shown (c : Nat) : List (Nat × List UInt8) → UInt8
  | [] => 0
  | (start, bs) :: rest =>
    if start ≤ c ∧ c < start + bs.length then bs[c - start]?.getD 0 else shown c rest

/-- The runs have bytes, none of them is zero, and between neighbouring runs there is a gap. -/
def Apart : List (Nat × List UInt8) → Prop
  | [] => True
  | (start, bs) :: rest =>
    bs ≠ [] ∧ (∀ b ∈ bs, b ≠ 0) ∧ (∀ r ∈ rest, start + bs.length < r.1) ∧ Apart rest

/-- A listing with one more byte, which lies in front of its runs. -/
def addByte (a : Nat) (b : UInt8) (runs : List (Nat × List UInt8)) : List (Nat × List UInt8) :=
  if b = 0 then runs
  else match runs with
    | (next, bs) :: rest => if next = a + 1 then (a, b :: bs) :: rest else (a, [b]) :: runs
    | [] => [(a, [b])]

/-- A memory is listed byte by byte, from its highest address down. -/
theorem runs_eq (m : Memory) :
    m.runs = m.written.toList.foldr (fun p runs => addByte p.1 p.2 runs) [] :=
  Std.TreeMap.foldr_eq_foldr_toList

/-! ## One more byte -/

section

variable {a : Nat} {b : UInt8} {runs : List (Nat × List UInt8)}

/-- In front of its runs a listing shows nothing. -/
theorem shown_of_lt (h : ∀ r ∈ runs, a < r.1) : shown a runs = 0 := by
  induction runs with
  | nil => rfl
  | cons r rest ih =>
    have hr := h r List.mem_cons_self
    rw [shown, if_neg (by omega)]
    exact ih fun r' hr' => h r' (List.mem_cons_of_mem r hr')

/-- A byte of zero is left out, and any other byte is put in front of the first run or becomes a run
of its own. -/
theorem addByte_cases (a : Nat) (b : UInt8) (runs : List (Nat × List UInt8)) :
    (b = 0 ∧ addByte a b runs = runs) ∨
    (b ≠ 0 ∧ ∃ bs rest, runs = (a + 1, bs) :: rest ∧ addByte a b runs = (a, b :: bs) :: rest) ∨
    (b ≠ 0 ∧ (∀ r ∈ runs.head?, r.1 ≠ a + 1) ∧ addByte a b runs = (a, [b]) :: runs) := by
  by_cases hb : b = 0
  · exact .inl ⟨hb, if_pos hb⟩
  · cases runs with
    | nil => exact .inr (.inr ⟨hb, nofun, if_neg hb⟩)
    | cons r rest =>
      obtain ⟨next, bs⟩ := r
      by_cases hnext : next = a + 1
      · subst hnext
        exact .inr (.inl ⟨hb, bs, rest, rfl, (if_neg hb).trans (if_pos rfl)⟩)
      · exact .inr (.inr ⟨hb, by simpa using hnext, (if_neg hb).trans (if_neg hnext)⟩)

theorem shown_addByte (h : ∀ r ∈ runs, a < r.1) (c : Nat) :
    shown c (addByte a b runs) = if c = a then b else shown c runs := by
  obtain ⟨rfl, hadd⟩ | ⟨-, bs, rest, rfl, hadd⟩ | ⟨-, -, hadd⟩ := addByte_cases a b runs
  · rw [hadd]
    split
    · next hc => rw [hc, shown_of_lt h]
    · rfl
  · rw [hadd]
    by_cases hc : c = a
    · subst hc
      simp [shown]
    · have hiff : (a ≤ c ∧ c < a + (b :: bs).length) ↔ (a + 1 ≤ c ∧ c < a + 1 + bs.length) := by
        rw [List.length_cons]
        omega
      rw [if_neg hc, shown, shown]
      simp only [hiff]
      split
      · obtain ⟨i, rfl⟩ : ∃ i, c = a + 1 + i := Nat.exists_eq_add_of_le (by omega)
        rw [Nat.add_sub_cancel_left, show a + 1 + i - a = i + 1 by omega,
          List.getElem?_cons_succ]
      · rfl
  · rw [hadd]
    by_cases hc : c = a
    · subst hc
      simp [shown]
    · rw [shown, if_neg (by rw [List.length_singleton]; omega), if_neg hc]

theorem le_of_mem_addByte (h : ∀ r ∈ runs, a < r.1) : ∀ r ∈ addByte a b runs, a ≤ r.1 := by
  intro r hr
  obtain ⟨-, hadd⟩ | ⟨-, bs, rest, rfl, hadd⟩ | ⟨-, -, hadd⟩ := addByte_cases a b runs
  · exact Nat.le_of_lt (h r (hadd ▸ hr))
  · rw [hadd] at hr
    rcases List.mem_cons.1 hr with rfl | hr
    · exact Nat.le_refl a
    · exact Nat.le_of_lt (h r (List.mem_cons_of_mem _ hr))
  · rw [hadd] at hr
    rcases List.mem_cons.1 hr with rfl | hr
    · exact Nat.le_refl a
    · exact Nat.le_of_lt (h r hr)

theorem apart_addByte (h : ∀ r ∈ runs, a < r.1) (hruns : Apart runs) :
    Apart (addByte a b runs) := by
  obtain ⟨-, hadd⟩ | ⟨hb, bs, rest, rfl, hadd⟩ | ⟨hb, hhead, hadd⟩ := addByte_cases a b runs
  · rwa [hadd]
  · obtain ⟨-, hbytes, hgap, hrest⟩ := hruns
    rw [hadd]
    refine ⟨List.cons_ne_nil b bs, List.forall_mem_cons.2 ⟨hb, hbytes⟩, fun r hr => ?_, hrest⟩
    have := hgap r hr
    rw [List.length_cons]
    omega
  · have hbyte : ∀ b' ∈ [b], b' ≠ 0 := fun b' hb' => List.mem_singleton.1 hb' ▸ hb
    rw [hadd]
    refine ⟨List.cons_ne_nil b [], hbyte, fun r hr => ?_, hruns⟩
    rw [List.length_singleton]
    -- the first run lies behind the next byte, and the others lie behind the first
    cases runs with
    | nil => exact absurd hr List.not_mem_nil
    | cons first rest =>
      have hne : first.1 ≠ a + 1 := hhead first rfl
      have hlt : a < first.1 := h first List.mem_cons_self
      rcases List.mem_cons.1 hr with rfl | hr
      · omega
      · have := hruns.2.2.1 r hr
        omega

end

/-! ## All bytes -/

/-- The listing of some bytes, by increasing address. -/
structure Lists (bytes : List (Nat × UInt8)) (runs : List (Nat × List UInt8)) : Prop where
  apart : Apart runs
  behind : ∀ k, (∀ p ∈ bytes, k < p.1) → ∀ r ∈ runs, k < r.1
  shown_mem : ∀ p ∈ bytes, shown p.1 runs = p.2
  shown_not_mem : ∀ c, (∀ p ∈ bytes, p.1 ≠ c) → shown c runs = 0

theorem lists_foldr {bytes : List (Nat × UInt8)} (h : bytes.Pairwise fun p q => p.1 < q.1) :
    Lists bytes (bytes.foldr (fun p runs => addByte p.1 p.2 runs) []) := by
  induction bytes with
  | nil =>
    exact ⟨trivial, fun k _ r hr => absurd hr List.not_mem_nil,
      fun p hp => absurd hp List.not_mem_nil, fun c _ => rfl⟩
  | cons p rest ih =>
    obtain ⟨hfirst, hrest⟩ := List.pairwise_cons.1 h
    have hlists := ih hrest
    have hbehind := hlists.behind p.1 hfirst
    refine ⟨apart_addByte hbehind hlists.apart, fun k hk r hr => ?_, fun q hq => ?_, fun c hc => ?_⟩
    · exact Nat.lt_of_lt_of_le (hk p List.mem_cons_self) (le_of_mem_addByte hbehind r hr)
    · rw [List.foldr_cons, shown_addByte hbehind]
      rcases List.mem_cons.1 hq with rfl | hq
      · exact if_pos rfl
      · rw [if_neg (Nat.ne_of_gt (hfirst q hq)), hlists.shown_mem q hq]
    · rw [List.foldr_cons, shown_addByte hbehind, if_neg (Ne.symm (hc p List.mem_cons_self))]
      exact hlists.shown_not_mem c fun q hq => hc q (List.mem_cons_of_mem p hq)

theorem lists_runs (m : Memory) : Lists m.written.toList m.runs := by
  rw [runs_eq]
  refine lists_foldr (Std.TreeMap.ordered_keys_toList.imp ?_)
  intro p q hpq
  exact Nat.compare_eq_lt.1 hpq

/-- **The listing of a memory shows the byte of every address.** -/
theorem shown_runs (m : Memory) (c : Nat) : shown c m.runs = m.byte c := by
  have hlists := m.lists_runs
  rw [byte, Std.TreeMap.getD_eq_getD_getElem?]
  cases hc : m.written[c]? with
  | some b => exact hlists.shown_mem (c, b) (Std.TreeMap.mem_toList_iff_getElem?_eq_some.2 hc)
  | none =>
    refine hlists.shown_not_mem c fun p hp hpc => ?_
    have hget := Std.TreeMap.mem_toList_iff_getElem?_eq_some.1 (show (p.1, p.2) ∈ _ from hp)
    rw [hpc, hc] at hget
    exact absurd hget nofun

/-- **The runs of a memory cannot be longer.** -/
theorem apart_runs (m : Memory) : Apart m.runs :=
  m.lists_runs.apart

end Eqasm.Memory
