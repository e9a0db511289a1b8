import Eqasm.Proofs.Except
import Eqasm.Proofs.Tally.Reduction
import Eqasm.Setup

/-!
# Shots of a setup

A number of shots gives a tally exactly if each of them ends (`Setup.shots_eq_ok`), and the tally is
that of these shots, however they are scheduled. The shots from some number on are those of a setup
with another seed (`Setup.later`), so a large number of shots can be taken in two parts
(`Setup.shots_of_schedule`).
-/

namespace Eqasm.Setup

-- Sums start at the zero of the core library, whatever else is in scope.
attribute [local instance (2000)] Zero.ofOfNat0

variable {s : Setup} {program : List Instruction}

/-- The shot with this number goes well, and ends like this. -/
def IsShot (s : Setup) (program : List Instruction) (number : Nat) (x : Shot) : Prop :=
  ∃ m m' o, s.boot program number = .ok m ∧ m.run = (m', .ok o) ∧
    x.results = m'.data.results.toList ∧
    o = if x.halted then .halted x.cycles else .cycleLimit x.cycles

/-- The shots from a number on. -/
inductive Yields (s : Setup) (program : List Instruction) : Nat → List Shot → Prop
  | nil (first : Nat) : Yields s program first []
  | cons {first : Nat} {x : Shot} {xs : List Shot} (h : s.IsShot program first x)
    (hs : Yields s program (first + 1) xs) : Yields s program first (x :: xs)

/-- The setup whose random streams are those of another one from the `n`-th on. -/
def later (s : Setup) (n : Nat) : Setup :=
  { s with backend := { s.backend with seed := .ofNat ((s.backend.seed.toNat + n) % UInt64.size) } }

/-! ## Single shots -/

theorem shot_eq_ok {number : Nat} {t : Tally} :
    s.shot program number = .ok t ↔ ∃ x, s.IsShot program number x ∧ t = x.tally := by
  rw [shot, except_bind_eq_ok]
  constructor
  · rintro ⟨m, hboot, hrun⟩
    split at hrun
    · cases hrun
    · rename_i m' cycles hm
      cases hrun
      exact ⟨⟨m'.data.results.toList, cycles, true⟩, ⟨m, m', _, hboot, hm, rfl, rfl⟩, rfl⟩
    · rename_i m' cycles hm
      cases hrun
      exact ⟨⟨m'.data.results.toList, cycles, false⟩, ⟨m, m', _, hboot, hm, rfl, rfl⟩, rfl⟩
  · rintro ⟨⟨results, cycles, halted⟩, ⟨m, m', o, hboot, hm, hresults, ho⟩, rfl⟩
    obtain rfl : results = m'.data.results.toList := hresults
    refine ⟨m, hboot, ?_⟩
    cases halted <;> simp [hm, ho, Shot.tally]

/-- A later stream of random outcomes. -/
theorem seed_later (s : Setup) (n k : Nat) :
    (s.later n).backend.seed + .ofNat k = s.backend.seed + .ofNat (n + k) := by
  rw [later, UInt64.ofNat_mod_size, UInt64.ofNat_add, UInt64.ofNat_add, UInt64.ofNat_toNat,
    UInt64.add_assoc]

theorem boot_later (s : Setup) (program : List Instruction) (n k : Nat) :
    (s.later n).boot program k = s.boot program (n + k) := by
  have hbuild : (s.later n).backend.build s.config.qubits (.ofNat k) =
      s.backend.build s.config.qubits (.ofNat (n + k)) := by
    rw [BackendSettings.build, BackendSettings.build, seed_later]
    rfl
  unfold boot
  rw [← hbuild]
  rfl

/-- What a shot ends with does not depend on its number, if its random stream is the same. -/
theorem isShot_later {n k : Nat} {x : Shot} :
    (s.later n).IsShot program k x ↔ s.IsShot program (n + k) x := by
  rw [IsShot, IsShot, boot_later]

/-! ## Many shots -/

theorem yields_append {first : Nat} {xs ys : List Shot} :
    s.Yields program first (xs ++ ys) ↔
      s.Yields program first xs ∧ s.Yields program (first + xs.length) ys := by
  induction xs generalizing first with
  | nil => exact ⟨fun h => ⟨.nil _, h⟩, fun h => h.2⟩
  | cons x xs ih =>
    have hlen : first + (x :: xs).length = first + 1 + xs.length := by
      rw [List.length_cons]
      omega
    rw [hlen, List.cons_append]
    constructor
    · rintro (_ | ⟨h, hs⟩)
      obtain ⟨hxs, hys⟩ := ih.1 hs
      exact ⟨.cons h hxs, hys⟩
    · rintro ⟨_ | ⟨h, hs⟩, hys⟩
      exact .cons h (ih.2 ⟨hs, hys⟩)

theorem yields_later {n first : Nat} {xs : List Shot} :
    (s.later n).Yields program first xs ↔ s.Yields program (n + first) xs := by
  induction xs generalizing first with
  | nil => exact ⟨fun _ => .nil _, fun _ => .nil _⟩
  | cons x xs ih =>
    constructor
    · rintro (_ | ⟨h, hs⟩)
      exact .cons (isShot_later.1 h) (ih.1 hs)
    · rintro (_ | ⟨h, hs⟩)
      exact .cons (isShot_later.2 h) (ih.2 hs)

/-- Shots are added to a tally one after the other. -/
theorem shotsFrom_eq_ok {first count : Nat} {t u : Tally} :
    s.shotsFrom program first t count = .ok u ↔
      ∃ xs, s.Yields program first xs ∧ xs.length = count ∧
        u = xs.foldl (fun t x => t.merge x.tally) t := by
  induction count generalizing first t with
  | zero =>
    constructor
    · rintro ⟨⟩
      exact ⟨[], .nil _, rfl, rfl⟩
    · rintro ⟨xs, -, hlen, rfl⟩
      rw [List.eq_nil_of_length_eq_zero hlen]
      rfl
  | succ count ih =>
    rw [shotsFrom]
    constructor
    · intro h
      split at h
      · cases h
      · rename_i v hv
        obtain ⟨x, hx, rfl⟩ := shot_eq_ok.1 hv
        obtain ⟨xs, hxs, rfl, rfl⟩ := ih.1 h
        exact ⟨x :: xs, .cons hx hxs, rfl, rfl⟩
    · rintro ⟨_ | ⟨x, xs⟩, hxs, hlen, rfl⟩
      · cases hlen
      · obtain _ | ⟨hx, hxs⟩ := hxs
        have hshot : s.shot program first = .ok x.tally := shot_eq_ok.2 ⟨x, hx, rfl⟩
        simp only [hshot]
        exact ih.2 ⟨xs, hxs, Nat.succ.inj hlen, rfl⟩

theorem describes_foldl_merge {t : Tally} {done : List Shot} (h : t.Describes done)
    (xs : List Shot) : (xs.foldl (fun t x => t.merge x.tally) t).Describes (done ++ xs) := by
  induction xs generalizing t done with
  | nil => simpa using h
  | cons x xs ih =>
    have hx := ih (h.merge (Reduction.shot x).describes_tally)
    rwa [List.append_assoc] at hx

/-- **Shots give a tally exactly if each of them goes well**, and the tally is theirs. -/
theorem shots_eq_ok {count : Nat} {t : Tally} :
    s.shots program count = .ok t ↔
      ∃ xs, s.Yields program 0 xs ∧ xs.length = count ∧ t = .ofShots xs := by
  rw [shots, shotsFrom_eq_ok]
  have hfold : ∀ xs : List Shot, xs.foldl (fun t x => t.merge x.tally) {} = Tally.ofShots xs :=
    fun xs => (describes_foldl_merge .empty xs).unique (Tally.describes_ofShots xs)
  simp only [hfold]

/-- Shots in two parts. -/
theorem shots_add {n m : Nat} {t : Tally} :
    s.shots program (n + m) = .ok t ↔ ∃ u v, s.shots program n = .ok u ∧
      (s.later n).shots program m = .ok v ∧ t = u.merge v := by
  have hmerge : ∀ xs ys : List Shot,
      Tally.ofShots (xs ++ ys) = (Tally.ofShots xs).merge (.ofShots ys) := fun xs ys =>
    (Tally.describes_ofShots _).unique
      ((Tally.describes_ofShots xs).merge (Tally.describes_ofShots ys))
  simp only [shots_eq_ok]
  constructor
  · rintro ⟨xs, hxs, hlen, rfl⟩
    rw [← List.take_append_drop n xs] at hxs ⊢
    have htake : (xs.take n).length = n := by
      rw [List.length_take]
      omega
    obtain ⟨hfirst, hsecond⟩ := yields_append.1 hxs
    rw [htake, Nat.zero_add] at hsecond
    refine ⟨_, _, ⟨_, hfirst, htake, rfl⟩, ⟨_, yields_later.2 hsecond, ?_, rfl⟩, hmerge _ _⟩
    rw [List.length_drop]
    omega
  · rintro ⟨u, v, ⟨xs, hxs, rfl, rfl⟩, ⟨ys, hys, rfl, rfl⟩, rfl⟩
    have hsecond := yields_later.1 hys
    rw [Nat.add_zero, ← Nat.zero_add xs.length] at hsecond
    exact ⟨xs ++ ys, yields_append.2 ⟨hxs, hsecond⟩, List.length_append, (hmerge xs ys).symm⟩

/-- **Tallies of shots do not depend on the schedule.**

* Merging the tallies of single shots along any tree, in any order and with empty tallies anywhere,
  gives the tally of the shots that are taken one after the other. If the cycles of all shots fit in
  a counter of 64 bits, so do those of each part of the tree.
* The counts of the outcomes sum up to the number of shots. The ranking lists every outcome once
  with the number of shots that ended with it, the frequent ones first and equally frequent ones by
  key. It does not depend on the order in which the outcomes are kept, and neither do the report and
  what another tally becomes when this one is merged into it.
* Shots give a tally if and only if each of them goes well, and then it is theirs.
* So `n + m` shots go well if the first `n` do and `m` shots of the setup whose seed is by `n`
  greater, modulo 2⁶⁴, and the tally is that of both merged. -/
theorem shots_of_schedule :
    (∀ (r : Reduction) (xs : List Shot), r.shots.Perm xs → r.tally = .ofShots xs ∧
      ((xs.map Shot.cycles).sum < UInt64.size →
        ∀ part ∈ r.parts, part.tally.total < UInt64.size)) ∧
    (∀ (xs : List Shot) (t : Tally), .ofShots xs = t →
      (t.outcomes.map Prod.snd).sum = t.shots ∧ t.shots = xs.length ∧
      Counts.Ranks t.outcomes.ranking (xs.map Shot.key) ∧
      ∀ d : Counts, d.Perm t.outcomes → d.ranking = t.outcomes.ranking ∧
        { t with outcomes := d }.report = t.report ∧
        ∀ ys, (Tally.ofShots ys).merge { t with outcomes := d } = (Tally.ofShots ys).merge t) ∧
    (∀ (s : Setup) program count t, s.shots program count = .ok t ↔
      ∃ xs, s.Yields program 0 xs ∧ xs.length = count ∧ t = .ofShots xs) ∧
    ∀ (s : Setup) program n m t, s.shots program (n + m) = .ok t ↔
      ∃ u v, s.shots program n = .ok u ∧ (s.later n).shots program m = .ok v ∧ t = u.merge v := by
  refine ⟨?_, ?_, fun s program count t => shots_eq_ok, fun s program n m t => shots_add⟩
  · intro r xs hperm
    refine ⟨Reduction.tally_eq_ofShots hperm, ?_⟩
    intro htotal part hpart
    have hle := Reduction.total_le_of_mem_parts hpart
    rw [r.describes_tally.total, (hperm.map _).sum_nat] at hle
    omega
  · rintro xs t rfl
    have ht := Tally.describes_ofShots xs
    have hsum := ht.outcomes.sum_counts
    rw [List.length_map, ← ht.shots] at hsum
    refine ⟨hsum, ht.shots, ht.outcomes.ranks_ranking, ?_⟩
    intro d hd
    refine ⟨Counts.ranking_eq_of_perm hd, Tally.report_eq_of_perm _ hd, ?_⟩
    intro ys
    have hys := Tally.describes_ofShots ys
    exact (hys.merge_of_perm ht hd).unique (hys.merge ht)

/-- A shot that halted and one that was stopped, with an empty tally between them. -/
theorem shots_of_schedule_of_merge :
    (Reduction.merge (.shot ⟨[1, 0], 7, true⟩) (.merge .empty (.shot ⟨[0, 0], 5, false⟩))).tally =
      { least := 5, greatest := 7, total := 12, shots := 2, truncated := 1,
        outcomes := [("00", 1), ("10", 1)] } := by
  have htally := (shots_of_schedule.1 (.merge (.shot ⟨[1, 0], 7, true⟩)
    (.merge .empty (.shot ⟨[0, 0], 5, false⟩))) [⟨[0, 0], 5, false⟩, ⟨[1, 0], 7, true⟩]
    (by decide)).1
  exact htally.trans (by decide +kernel)

end Eqasm.Setup
