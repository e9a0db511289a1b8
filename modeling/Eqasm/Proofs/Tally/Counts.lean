import Eqasm.Tally
import Mathlib.Data.List.Perm.Basic

/-!
# Counts of keys

Counts describe a list of keys if they hold every key of the list with the number of times that it
occurs, by increasing key (`Counts.Describes`). Only one list of counts does
(`Describes.unique`), so the order in which keys are counted, alone or in groups, does not matter. A
ranking has the same entries, by decreasing count and then by key (`Describes.ranks_ranking`), and
is the same for every order of the entries (`ranking_eq_of_perm`).
-/

namespace Eqasm.Counts

-- Sums start at the zero of the core library, whatever else is in scope.
attribute [local instance (2000)] Zero.ofOfNat0

/-! ## Entries -/

/-- The keys with their repetitions. -/
def occurrences (c : Counts) : List String :=
  c.flatMap fun e => .replicate e.2 e.1

/-- Every key has one entry, and the entries are ordered. -/
structure Ordered (c : Counts) : Prop where
  sorted : c.Pairwise fun a b => a.1 < b.1
  pos : ∀ e ∈ c, 0 < e.2

/-- The counts are those of a list of keys. -/
structure Describes (c : Counts) (keys : List String) : Prop extends Ordered c where
  perm : c.occurrences.Perm keys

/-- Every key of a list is in one of the rows, with the number of times that it occurs. The frequent
keys come first, and equally frequent keys come in their order. -/
structure Ranks (rows : List (String × Nat)) (keys : List String) : Prop where
  nodup : (rows.map Prod.fst).Nodup
  mem_iff : ∀ key n, (key, n) ∈ rows ↔ 0 < n ∧ keys.count key = n
  sorted : rows.Pairwise fun a b => b.2 < a.2 ∨ b.2 = a.2 ∧ a.1 < b.1

@[simp] theorem occurrences_nil : occurrences [] = [] := rfl

@[simp] theorem occurrences_cons (e : String × Nat) (c : Counts) :
    occurrences (e :: c) = List.replicate e.2 e.1 ++ occurrences c := rfl

theorem length_occurrences (c : Counts) : c.occurrences.length = (c.map Prod.snd).sum := by
  induction c with
  | nil => rfl
  | cons e c ih => simp [ih]

theorem mem_keys_of_mem_occurrences {c : Counts} {key : String} (h : key ∈ c.occurrences) :
    ∃ e ∈ c, e.1 = key := by
  obtain ⟨e, he, hkey⟩ := List.mem_flatMap.1 h
  exact ⟨e, he, (List.eq_of_mem_replicate hkey).symm⟩

namespace Ordered

variable {c : Counts}

theorem nodup_keys (h : c.Ordered) : (c.map Prod.fst).Nodup := by
  rw [List.nodup_iff_pairwise_ne, List.pairwise_map]
  refine h.sorted.imp ?_
  intro a b hlt heq
  rw [heq] at hlt
  exact String.lt_irrefl _ hlt

theorem nodup (h : c.Ordered) : c.Nodup := by
  refine List.Pairwise.imp ?_ (List.pairwise_map.1 h.nodup_keys)
  rintro a b hne rfl
  exact hne rfl

theorem tail {e : String × Nat} (h : Ordered (e :: c)) : c.Ordered :=
  ⟨(List.pairwise_cons.1 h.sorted).2, fun e he => h.pos e (List.mem_cons_of_mem _ he)⟩

/-- The entry of a key says how often it occurs. -/
theorem mem_iff (h : c.Ordered) {key : String} {n : Nat} :
    (key, n) ∈ c ↔ 0 < n ∧ c.occurrences.count key = n := by
  induction c with
  | nil =>
    simp
    omega
  | cons e c ih =>
    obtain ⟨k, m⟩ := e
    have hm : 0 < m := h.pos (k, m) (List.mem_cons_self ..)
    have hlater : ∀ e ∈ c, k < e.1 := (List.pairwise_cons.1 h.sorted).1
    rw [occurrences_cons, List.count_append, List.count_replicate, List.mem_cons, ih h.tail,
      Prod.mk.injEq]
    by_cases hkey : key = k
    · have hrest : (occurrences c).count key = 0 := by
        refine List.count_eq_zero.2 fun hmem => ?_
        obtain ⟨e, he, rfl⟩ := mem_keys_of_mem_occurrences hmem
        have hlt := hlater e he
        rw [hkey] at hlt
        exact String.lt_irrefl _ hlt
      rw [hrest, if_pos (by simp [hkey])]
      constructor
      · rintro (⟨-, rfl⟩ | ⟨hn, rfl⟩)
        · exact ⟨hm, rfl⟩
        · omega
      · rintro ⟨-, rfl⟩
        exact .inl ⟨hkey, rfl⟩
    · rw [if_neg (by simpa using Ne.symm hkey)]
      simp [hkey]

end Ordered

namespace Describes

variable {c d : Counts} {keys keys' : List String}

theorem mem_iff (h : c.Describes keys) {key : String} {n : Nat} :
    (key, n) ∈ c ↔ 0 < n ∧ keys.count key = n := by
  rw [h.toOrdered.mem_iff, h.perm.count_eq]

theorem of_perm (h : c.Describes keys) (hkeys : keys.Perm keys') : c.Describes keys' :=
  ⟨h.toOrdered, h.perm.trans hkeys⟩

/-- **There is one way to count keys.** -/
theorem unique (hc : c.Describes keys) (hd : d.Describes keys) : c = d := by
  have hperm : c.Perm d := by
    rw [List.perm_ext_iff_of_nodup hc.nodup hd.nodup]
    rintro ⟨key, n⟩
    rw [hc.mem_iff, hd.mem_iff]
  refine hperm.eq_of_pairwise ?_ hc.sorted hd.sorted
  intro a b _ _ hab hba
  exact absurd (String.lt_trans hab hba) (String.lt_irrefl _)

/-- The counts sum up to the number of keys. -/
theorem sum_counts (h : c.Describes keys) : (c.map Prod.snd).sum = keys.length := by
  rw [← length_occurrences, h.perm.length_eq]

end Describes

/-! ## Counting -/

theorem exists_of_mem_bump {key : String} {n : Nat} {c : Counts} {e : String × Nat}
    (h : e ∈ bump key n c) : e.1 = key ∨ ∃ e' ∈ c, e.1 = e'.1 := by
  induction c with
  | nil => exact .inl (by rw [List.mem_singleton.1 h])
  | cons a c ih =>
    obtain ⟨k, m⟩ := a
    rw [bump] at h
    split at h
    · rcases List.mem_cons.1 h with rfl | h
      · exact .inl rfl
      · exact .inr ⟨e, h, rfl⟩
    · split at h
      · rcases List.mem_cons.1 h with rfl | h
        · exact .inr ⟨(k, m), List.mem_cons_self .., rfl⟩
        · exact .inr ⟨e, List.mem_cons_of_mem _ h, rfl⟩
      · rcases List.mem_cons.1 h with rfl | h
        · exact .inr ⟨(k, m), List.mem_cons_self .., rfl⟩
        · rcases ih h with he | ⟨e', he', he⟩
          · exact .inl he
          · exact .inr ⟨e', List.mem_cons_of_mem _ he', he⟩

theorem Ordered.bump {c : Counts} (h : c.Ordered) (key : String) {n : Nat} (hn : 0 < n) :
    (c.bump key n).Ordered := by
  induction c with
  | nil => exact ⟨List.pairwise_singleton .., by simpa [Counts.bump] using hn⟩
  | cons a c ih =>
    obtain ⟨k, m⟩ := a
    obtain ⟨hlater, hsorted⟩ := List.pairwise_cons.1 h.sorted
    obtain ⟨hm, hpos⟩ := List.forall_mem_cons.1 h.pos
    have hrest := ih h.tail
    rw [Counts.bump]
    split
    · rename_i hlt
      refine ⟨List.pairwise_cons.2 ⟨?_, h.sorted⟩, List.forall_mem_cons.2 ⟨hn, h.pos⟩⟩
      intro e he
      rcases List.mem_cons.1 he with rfl | he
      · exact hlt
      · exact String.lt_trans hlt (hlater e he)
    · split
      · refine ⟨List.pairwise_cons.2 ⟨hlater, hsorted⟩, List.forall_mem_cons.2 ⟨?_, hpos⟩⟩
        show 0 < m + n
        omega
      · rename_i hlt hne
        have hk : k < key := Std.lt_of_le_of_ne (String.not_lt.1 hlt) (Ne.symm hne)
        refine ⟨List.pairwise_cons.2 ⟨?_, hrest.sorted⟩, List.forall_mem_cons.2 ⟨hm, hrest.pos⟩⟩
        intro e he
        rcases exists_of_mem_bump he with heq | ⟨e', he', heq⟩
        · rw [heq]
          exact hk
        · rw [heq]
          exact hlater e' he'

/-- A key is counted wherever its entry is. -/
theorem occurrences_bump (key : String) (n : Nat) (c : Counts) :
    (c.bump key n).occurrences.Perm (.replicate n key ++ c.occurrences) := by
  induction c with
  | nil => exact .refl _
  | cons a c ih =>
    obtain ⟨k, m⟩ := a
    rw [bump]
    split
    · exact .refl _
    · split
      · rename_i hkey
        subst hkey
        rw [occurrences_cons, occurrences_cons, ← List.append_assoc,
          List.replicate_append_replicate, Nat.add_comm]
      · rw [occurrences_cons, occurrences_cons]
        refine (ih.append_left _).trans ?_
        rw [← List.append_assoc, ← List.append_assoc]
        exact List.perm_append_comm.append_right _

theorem describes_nil : Describes [] [] :=
  ⟨⟨.nil, by simp⟩, .refl _⟩

theorem Describes.bump {c : Counts} {keys : List String} (h : c.Describes keys) (key : String) :
    (c.bump key 1).Describes (key :: keys) :=
  ⟨h.toOrdered.bump key Nat.one_pos, (occurrences_bump key 1 c).trans (h.perm.cons key)⟩

/-- The entries of the other counts may come in any order. -/
theorem Describes.merge {c d : Counts} {keys keys' : List String} (h : c.Describes keys)
    (hpos : ∀ e ∈ d, 0 < e.2) (hd : d.occurrences.Perm keys') :
    (c.merge d).Describes (keys ++ keys') := by
  suffices key : (c.merge d).Ordered ∧ (c.merge d).occurrences.Perm (c.occurrences ++ d.occurrences)
    from ⟨key.1, key.2.trans (h.perm.append hd)⟩
  have hordered := h.toOrdered
  clear h hd
  rw [Counts.merge]
  induction d generalizing c with
  | nil => exact ⟨hordered, by simp⟩
  | cons e d ih =>
    obtain ⟨he, hpos⟩ := List.forall_mem_cons.1 hpos
    obtain ⟨hordered', hperm⟩ := ih hpos (hordered.bump e.1 he)
    refine ⟨hordered', hperm.trans ?_⟩
    refine ((occurrences_bump e.1 e.2 c).append_right _).trans ?_
    rw [occurrences_cons, ← List.append_assoc]
    exact List.perm_append_comm.append_right _

/-! ## Rankings -/

theorem ranksBefore_iff {a b : String × Nat} :
    ranksBefore a b ↔ b.2 < a.2 ∨ b.2 = a.2 ∧ a.1 ≤ b.1 := by
  simp [ranksBefore]

theorem ranksBefore_trans (a b c : String × Nat) (hab : ranksBefore a b) (hbc : ranksBefore b c) :
    ranksBefore a c := by
  rw [ranksBefore_iff] at hab hbc ⊢
  rcases hab with hab | ⟨hab, hab'⟩
  · omega
  · rcases hbc with hbc | ⟨hbc, hbc'⟩
    · omega
    · exact .inr ⟨hbc.trans hab, String.le_trans hab' hbc'⟩

theorem ranksBefore_total (a b : String × Nat) : (ranksBefore a b || ranksBefore b a) = true := by
  rw [Bool.or_eq_true, ranksBefore_iff, ranksBefore_iff]
  rcases Nat.lt_trichotomy a.2 b.2 with h | h | h
  · exact .inr (.inl h)
  · rcases String.le_total a.1 b.1 with hle | hle
    · exact .inl (.inr ⟨h.symm, hle⟩)
    · exact .inr (.inr ⟨h, hle⟩)
  · exact .inl (.inl h)

theorem ranksBefore_antisymm {a b : String × Nat} (hab : ranksBefore a b) (hba : ranksBefore b a) :
    a = b := by
  rw [ranksBefore_iff] at hab hba
  obtain ⟨hcount, hkey⟩ : b.2 = a.2 ∧ a.1 ≤ b.1 := hab.resolve_left (by omega)
  obtain ⟨-, hkey'⟩ : a.2 = b.2 ∧ b.1 ≤ a.1 := hba.resolve_left (by omega)
  exact Prod.ext (String.le_antisymm hkey hkey') hcount.symm

theorem pairwise_ranking (c : Counts) : c.ranking.Pairwise fun a b => ranksBefore a b :=
  List.pairwise_mergeSort ranksBefore_trans ranksBefore_total c

/-- **The order of the entries does not decide the ranking.** -/
theorem ranking_eq_of_perm {c d : Counts} (h : d.Perm c) : ranking d = ranking c := by
  have hperm : (ranking d).Perm (ranking c) :=
    (List.mergeSort_perm d _).trans (h.trans (List.mergeSort_perm c _).symm)
  exact hperm.eq_of_pairwise (fun _ _ _ _ => ranksBefore_antisymm) d.pairwise_ranking
    c.pairwise_ranking

/-- **A ranking lists every key once**, the frequent ones first. -/
theorem Describes.ranks_ranking {c : Counts} {keys : List String} (h : c.Describes keys) :
    Ranks c.ranking keys := by
  have hperm : c.ranking.Perm c := List.mergeSort_perm c _
  have hnodup : (c.ranking.map Prod.fst).Nodup :=
    (hperm.map Prod.fst).nodup_iff.2 h.nodup_keys
  refine ⟨hnodup, fun key n => hperm.mem_iff.trans h.mem_iff, ?_⟩
  refine (c.pairwise_ranking.and (List.pairwise_map.1 hnodup)).imp ?_
  rintro a b ⟨hranks, hne⟩
  rcases ranksBefore_iff.1 hranks with hlt | ⟨heq, hle⟩
  · exact .inl hlt
  · exact .inr ⟨heq, Std.lt_of_le_of_ne hle hne⟩

end Eqasm.Counts
