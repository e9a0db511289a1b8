import Eqasm.Proofs.Tally.Counts
import Eqasm.Tally.Report

/-!
# Tallies and their shots

What a tally says about shots (`Tally.Describes`) does not depend on their order, and there is one
tally for it (`Describes.unique`). Adding a shot and merging tallies keep to it, and the empty tally
is that of no shots. So whatever the tree along which the tallies of single shots are merged
(`Reduction`), the result is that of the shots taken one after the other
(`Reduction.tally_eq_ofShots`).
-/

namespace Eqasm

-- Sums start at the zero of the core library, whatever else is in scope.
attribute [local instance (2000)] Zero.ofOfNat0

/-- What a tally gathers of a shot. -/
structure Shot where
  results : List Nat
  cycles : Nat
  halted : Bool
  deriving DecidableEq, Repr

/-- The key under which the outcome of a shot is counted. -/
def Shot.key (x : Shot) : String :=
  outcomeKey x.results

/-- The tally of one shot. -/
def Shot.tally (x : Shot) : Tally :=
  Tally.add {} x.results x.cycles x.halted

/-- The tally of shots that are taken one after the other. -/
def Tally.ofShots (xs : List Shot) : Tally :=
  xs.foldl (fun t x => t.add x.results x.cycles x.halted) {}

/-- A tree along which tallies are merged, with the tallies of single shots and empty ones at its
leaves. -/
inductive Reduction where
  | empty
  | shot (x : Shot)
  | merge (l r : Reduction)
  deriving DecidableEq, Repr

namespace Reduction

/-- The tally at the root. -/
def tally : Reduction → Tally
  | empty => {}
  | shot x => x.tally
  | merge l r => l.tally.merge r.tally

/-- The shots at the leaves. -/
def shots : Reduction → List Shot
  | empty => []
  | shot x => [x]
  | merge l r => l.shots ++ r.shots

/-- The tree and all trees below it. -/
def parts : Reduction → List Reduction
  | empty => [empty]
  | shot x => [shot x]
  | merge l r => merge l r :: (l.parts ++ r.parts)

end Reduction

/-! ## What tallies say -/

namespace Tally

/-- The tally is that of the shots. -/
structure Describes (t : Tally) (xs : List Shot) : Prop where
  least : t.least = (xs.map Shot.cycles).foldr min ({} : Tally).least
  greatest : t.greatest = (xs.map Shot.cycles).foldr max 0
  total : t.total = (xs.map Shot.cycles).sum
  shots : t.shots = xs.length
  truncated : t.truncated = xs.countP (!·.halted)
  outcomes : t.outcomes.Describes (xs.map Shot.key)

namespace Describes

variable {t u : Tally} {xs ys : List Shot}

theorem unique (ht : t.Describes xs) (hu : u.Describes xs) : t = u := by
  cases t
  cases u
  rw [mk.injEq]
  exact ⟨ht.least.trans hu.least.symm, ht.greatest.trans hu.greatest.symm,
    ht.total.trans hu.total.symm, ht.shots.trans hu.shots.symm,
    ht.truncated.trans hu.truncated.symm, ht.outcomes.unique hu.outcomes⟩

/-- The order of the shots does not matter. -/
theorem of_perm (h : t.Describes xs) (hperm : xs.Perm ys) : t.Describes ys where
  least := by
    rw [h.least]
    refine (hperm.map _).foldr_eq' ?_ _
    intro x _ y _ z
    omega
  greatest := by
    rw [h.greatest]
    refine (hperm.map _).foldr_eq' ?_ _
    intro x _ y _ z
    omega
  total := h.total.trans (hperm.map _).sum_nat
  shots := h.shots.trans hperm.length_eq
  truncated := h.truncated.trans (hperm.countP_eq _)
  outcomes := h.outcomes.of_perm (hperm.map _)

theorem add (h : t.Describes xs) (x : Shot) :
    (t.add x.results x.cycles x.halted).Describes (x :: xs) where
  least := by
    rw [List.map_cons, List.foldr_cons, ← h.least]
    exact Nat.min_comm ..
  greatest := by
    rw [List.map_cons, List.foldr_cons, ← h.greatest]
    exact Nat.max_comm ..
  total := by
    rw [List.map_cons, List.sum_cons, ← h.total]
    exact Nat.add_comm ..
  shots := congrArg (· + 1) h.shots
  truncated := by
    rw [List.countP_cons, ← h.truncated]
    cases x.halted <;> rfl
  outcomes := h.outcomes.bump x.key

/-- The tally of no shots. -/
theorem empty : Describes {} [] :=
  ⟨rfl, rfl, rfl, rfl, rfl, Counts.describes_nil⟩

/-- No least number of cycles is above that of the empty tally. -/
theorem least_le (h : t.Describes xs) : t.least ≤ ({} : Tally).least := by
  rw [h.least]
  clear h
  induction xs with
  | nil => exact Nat.le_refl _
  | cons x xs ih => exact Nat.le_trans (Nat.min_le_right ..) ih

/-- The entries of the other tally may come in any order. -/
theorem merge_of_perm (ht : t.Describes xs) (hu : u.Describes ys) {d : Counts}
    (hd : d.Perm u.outcomes) : (t.merge { u with outcomes := d }).Describes (xs ++ ys) where
  least := by
    calc min t.least u.least
        = min ((xs.map Shot.cycles).foldr min ({} : Tally).least) u.least := by rw [ht.least]
      _ = (xs.map Shot.cycles).foldr min (min ({} : Tally).least u.least) :=
        List.foldr_assoc.symm
      _ = (xs.map Shot.cycles).foldr min u.least := by rw [Nat.min_eq_right hu.least_le]
      _ = ((xs ++ ys).map Shot.cycles).foldr min ({} : Tally).least := by
        rw [hu.least, List.map_append, List.foldr_append]
  greatest := by
    calc max t.greatest u.greatest
        = max ((xs.map Shot.cycles).foldr max 0) u.greatest := by rw [ht.greatest]
      _ = (xs.map Shot.cycles).foldr max (max 0 u.greatest) := List.foldr_assoc.symm
      _ = (xs.map Shot.cycles).foldr max u.greatest := by rw [Nat.zero_max]
      _ = ((xs ++ ys).map Shot.cycles).foldr max 0 := by
        rw [hu.greatest, List.map_append, List.foldr_append]
  total := by
    show t.total + u.total = _
    rw [List.map_append, List.sum_append_nat, ht.total, hu.total]
  shots := by
    show t.shots + u.shots = _
    rw [List.length_append, ht.shots, hu.shots]
  truncated := by
    show t.truncated + u.truncated = _
    rw [List.countP_append, ht.truncated, hu.truncated]
  outcomes := by
    have hpos : ∀ e ∈ d, 0 < e.2 := fun e he => hu.outcomes.pos e (hd.subset he)
    have hperm : d.occurrences.Perm (ys.map Shot.key) :=
      (hd.flatMap_right _).trans hu.outcomes.perm
    rw [List.map_append]
    exact ht.outcomes.merge hpos hperm

theorem merge (ht : t.Describes xs) (hu : u.Describes ys) : (t.merge u).Describes (xs ++ ys) :=
  ht.merge_of_perm hu (.refl _)

/-- The shots of both tallies in the order in which they are added. -/
theorem foldl_add (h : t.Describes xs) (ys : List Shot) :
    (ys.foldl (fun t x => t.add x.results x.cycles x.halted) t).Describes (ys ++ xs) := by
  induction ys generalizing t xs with
  | nil => exact h
  | cons y ys ih => exact (ih (h.add y)).of_perm List.perm_middle

end Describes

theorem describes_ofShots (xs : List Shot) : (ofShots xs).Describes xs := by
  have h := Describes.empty.foldl_add xs
  rwa [List.append_nil] at h

/-- A report does not depend on the order in which the outcomes are kept. -/
theorem report_eq_of_perm (t : Tally) {d : Counts} (h : d.Perm t.outcomes) :
    { t with outcomes := d }.report = t.report := by
  unfold report
  rw [Counts.ranking_eq_of_perm h]
  rfl

end Tally

/-! ## Trees -/

namespace Reduction

theorem describes_tally (r : Reduction) : r.tally.Describes r.shots := by
  induction r with
  | empty => exact .empty
  | shot x => exact Tally.Describes.empty.add x
  | merge l r hl hr => exact hl.merge hr

/-- **The tree does not matter**: tallies that are merged in any order and in any groups give the
tally of the shots that are taken one after the other. -/
theorem tally_eq_ofShots {r : Reduction} {xs : List Shot} (h : r.shots.Perm xs) :
    r.tally = .ofShots xs :=
  (r.describes_tally.of_perm h).unique (Tally.describes_ofShots xs)

/-- The cycles of a part are cycles of the whole. -/
theorem total_le_of_mem_parts {r part : Reduction} (h : part ∈ r.parts) :
    part.tally.total ≤ r.tally.total := by
  induction r with
  | empty | shot x =>
    obtain rfl := List.mem_singleton.1 h
    exact Nat.le_refl _
  | merge l r hl hr =>
    have htotal : (merge l r).tally.total = l.tally.total + r.tally.total := rfl
    rcases List.mem_cons.1 h with rfl | h
    · exact Nat.le_refl _
    · rcases List.mem_append.1 h with h | h
      · have := hl h
        omega
      · have := hr h
        omega

end Reduction

end Eqasm
