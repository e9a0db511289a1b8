import Eqasm.Proofs.Statement.Operands

/-!
# The readers follow the grammar

`Statement.read` reads the statements of the grammar and no others (`Statement.read_iff_denotes`).
That it reads nothing else is shown keyword by keyword, from what the readers of the operands took;
that it reads all of them, form by form. What follows a bundle must not start with a separator of
its operations, as line ends do not.
-/

namespace Eqasm

namespace Reader

variable {c d e : Cursor}

theorem peek_eq_ok {t? : Option Token} : peek.run c = (d, .ok t?) ↔ c.next? = t? ∧ c = d := by
  simp [peek, Work.look, and_comm]

/-! ## Bundles -/

theorem exists_of_parallelism {pi : UInt32} (h : parallelism.run c = (e, .ok pi)) :
    ∃ taken, DistanceForm taken pi ∧ c.Takes taken e := by
  obtain ⟨v, d, hv, h⟩ := bind_eq_ok.1 h
  obtain ⟨w, hc, hw⟩ := exists_word_of_number rfl rfl hv
  obtain ⟨found, hcomma, rfl⟩ := bind_pure_eq_ok.1 h
  rw [hw]
  cases found with
  | false =>
    obtain ⟨-, rfl⟩ := eat_eq_false.1 hcomma
    exact ⟨_, .plain w, hc⟩
  | true => exact ⟨_, .comma w, hc.append (eat_eq_true.1 hcomma)⟩

/-- A distance is read if no comma follows that would not belong to it. -/
theorem parallelism_eq_ok {before : List Token} {pi : UInt32} (h : DistanceForm before pi)
    (hc : c.Takes before e) (he : e.next? ≠ some .comma) :
    parallelism.run c = (e, .ok pi) := by
  have hpi : UInt32.ofNat (pi.toNat : Int).toNat = pi := by
    rw [Int.toNat_natCast, UInt32.ofNat_toNat]
  cases h with
  | plain =>
    exact bind_eq_ok.2 ⟨_, e, number_word rfl rfl hc,
      bind_pure_eq_ok.2 ⟨false, eat_eq_false.2 ⟨he, rfl⟩, hpi⟩⟩
  | comma =>
    obtain ⟨hv, hcomma⟩ := hc
    exact bind_eq_ok.2 ⟨_, c.advance, number_word rfl rfl ⟨hv, rfl⟩,
      bind_pure_eq_ok.2 ⟨true, eat_eq_true.2 hcomma, hpi⟩⟩

theorem microOps_eq_ok {ops : List MicroOp} : microOps.run c = (d, .ok ops) ↔
    ∃ taken, Listed .bar MicroOpForm taken ops ∧ c.Takes taken d ∧ d.next? ≠ some .bar :=
  list_eq_ok follows_microOp

/-- A distance that is not stated takes no token. -/
theorem distance_eq_ok {marked : Bool} {pi : UInt32} : (distance marked).run c = (d, .ok pi) ↔
    if marked || (c.next?.bind Token.int?).isSome then parallelism.run c = (d, .ok pi)
    else pi = 1 ∧ c = d := by
  rw [distance, bind_eq_ok]
  constructor
  · rintro ⟨t?, _, hpeek, h⟩
    obtain ⟨rfl, rfl⟩ := peek_eq_ok.1 hpeek
    split at h
    · rwa [if_pos ‹_›]
    · rw [if_neg ‹_›]
      cases h
      exact ⟨rfl, rfl⟩
  · intro h
    refine ⟨c.next?, c, rfl, ?_⟩
    split at h
    · rwa [if_pos ‹_›]
    · obtain ⟨rfl, rfl⟩ := h
      rw [if_neg ‹_›]
      rfl

/-- A bundle that is read has one of the three forms of bundles. -/
theorem denotes_of_bundle {o : Operation} (h : bundle.run c = (e, .ok o)) :
    ∃ taken, Denotes taken [o] ∧ c.Takes taken e := by
  obtain ⟨marked, d, hmarked, h⟩ := bind_eq_ok.1 h
  obtain ⟨pi, d', hpi, h⟩ := bind_eq_ok.1 h
  obtain ⟨ops, hops, rfl⟩ := bind_pure_eq_ok.1 h
  obtain ⟨taken, htaken, hd', -⟩ := microOps_eq_ok.1 hops
  rw [distance_eq_ok] at hpi
  cases marked with
  | true =>
    obtain ⟨before, hbefore, hd⟩ := exists_of_parallelism hpi
    exact ⟨_, .marked hbefore htaken, (eat_eq_true.1 hmarked).append (hd.append hd')⟩
  | false =>
    obtain ⟨-, rfl⟩ := eat_eq_false.1 hmarked
    split at hpi
    · obtain ⟨before, hbefore, hd⟩ := exists_of_parallelism hpi
      exact ⟨_, .timed hbefore htaken, hd.append hd'⟩
    · obtain ⟨rfl, rfl⟩ := hpi
      exact ⟨_, .bundle htaken, hd'⟩

/-- A list of quantum operations starts with none of the tokens that may stand in front of it. -/
theorem next?_of_listed {taken : List Token} {ops : List MicroOp}
    (h : Listed .bar MicroOpForm taken ops) (hc : c.Takes taken d) :
    c.next? = some (.keyword .qnop) ∨ ∃ name, c.next? = some (.ident name) := by
  cases h with
  | one h | cons h =>
    cases h with
    | qnop => exact .inl hc.1
    | single name | pair name => exact .inr ⟨name, hc.1⟩

theorem next?_of_distance {before : List Token} {pi : UInt32} (h : DistanceForm before pi)
    (hc : c.Takes before d) : ∃ v, c.next? = some (.int v) := by
  cases h <;> exact ⟨_, hc.1⟩

/-! ## Statements -/

/-- Behind a keyword nothing is read but the operands of a statement. -/
theorem denotes_of_operands {k : Keyword} {s : Statement} (h : (operands k).run c = (e, .ok s)) :
    ∃ taken, Denotes (.keyword k :: taken) s.expand ∧ c.Takes taken e := by
  cases k with
  | nop =>
    cases h
    exact ⟨[], .nop, rfl⟩
  | stop =>
    cases h
    exact ⟨[], .stop, rfl⟩
  | qwait =>
    obtain ⟨v, hv, rfl⟩ := bind_pure_eq_ok.1 h
    obtain ⟨w, hc, hw⟩ := exists_word_of_number rfl rfl hv
    rw [hw]
    exact ⟨_, .qwait w, hc⟩
  | qwaitr =>
    obtain ⟨rs, hrs, rfl⟩ := bind_pure_eq_ok.1 h
    exact ⟨_, .qwaitr rs, register_eq_ok.1 hrs⟩
  | smis =>
    obtain ⟨si, qubits, _, _, hsi, hcomma, hq, rfl⟩ := two_eq_ok.1 h
    obtain ⟨_, ⟨taken, htaken, rfl⟩, hq⟩ := (follows_inBraces follows_qubit _ _ _).1 hq
    exact ⟨_, .smis si htaken, (register_eq_ok.1 hsi).append (hcomma.append hq)⟩
  | smit =>
    obtain ⟨ti, pairs, _, _, hti, hcomma, hp, rfl⟩ := two_eq_ok.1 h
    obtain ⟨_, ⟨taken, htaken, rfl⟩, hp⟩ := (follows_inBraces follows_qubitPair _ _ _).1 hp
    exact ⟨_, .smit ti htaken, (register_eq_ok.1 hti).append (hcomma.append hp)⟩
  | not | cmp | fmr | fcvtws | fcvtsw =>
    obtain ⟨i, j, _, _, hi, hcomma, hj, rfl⟩ := two_eq_ok.1 h
    refine ⟨[_, _, _], ?_, (register_eq_ok.1 hi).append (hcomma.append (register_eq_ok.1 hj))⟩
    constructor
  | br =>
    obtain ⟨f, l, _, _, hf, hcomma, hl, rfl⟩ := two_eq_ok.1 h
    exact ⟨_, .br f l, (flag_eq_ok.1 hf).append (hcomma.append (label_eq_ok.1 hl))⟩
  | fbr =>
    obtain ⟨f, rd, _, _, hf, hcomma, hrd, rfl⟩ := two_eq_ok.1 h
    exact ⟨_, .fbr f rd, (flag_eq_ok.1 hf).append (hcomma.append (register_eq_ok.1 hrd))⟩
  | ldi =>
    obtain ⟨rd, imm, _, _, hrd, hcomma, himm, rfl⟩ := two_eq_ok.1 h
    obtain ⟨v, hv, hint, rfl⟩ := immediate_eq_ok.1 himm
    exact ⟨_, .ldi rd hv, (register_eq_ok.1 hrd).append (hcomma.append hint)⟩
  | ldui =>
    obtain ⟨rd, _, hrd, h⟩ := bind_eq_ok.1 h
    obtain ⟨rs, _, hrs, h⟩ := bind_eq_ok.1 h
    obtain ⟨v, hv, rfl⟩ := bind_pure_eq_ok.1 h
    obtain ⟨_, hcomma, hrs⟩ := andThen_eq_ok.1 hrs
    obtain ⟨n, hint, rfl, hn⟩ := exists_of_number rfl hv
    have hfirst := (register_eq_ok.1 hrd).append hcomma
    rcases sourceOr_eq_ok.1 hrs with hrs | ⟨-, rfl, rfl⟩
    · exact ⟨_, .ldui rd rs (Int.ofNat_le.1 hn), hfirst.append (hrs.append hint)⟩
    · exact ⟨_, .lduiSame rs (Int.ofNat_le.1 hn), hfirst.append hint⟩
  | alu | fpu | fcmp =>
    obtain ⟨⟨i, j, k⟩, hx, rfl⟩ := bind_pure_eq_ok.1 h
    obtain ⟨_, _, _, _, hi, hcomma, hj, hcomma', hk⟩ := three_eq_ok.1 hx
    refine ⟨[_, _, _, _, _], ?_, (register_eq_ok.1 hi).append (hcomma.append
      ((register_eq_ok.1 hj).append (hcomma'.append (register_eq_ok.1 hk))))⟩
    constructor
  | load | store | flw | fsw =>
    obtain ⟨i, x, _, _, hi, hcomma, hx, rfl⟩ := two_eq_ok.1 h
    obtain ⟨taken, htaken, hx⟩ := (follows_address _ _ _).1 hx
    refine ⟨_ :: .comma :: taken, ?_, (register_eq_ok.1 hi).append (hcomma.append hx)⟩
    constructor
    exact htaken
  | addi =>
    obtain ⟨rd, _, hrd, h⟩ := bind_eq_ok.1 h
    obtain ⟨rs, imm, _, _, hrs, hcomma', himm, rfl⟩ := two_eq_ok.1 h
    obtain ⟨_, hcomma, hrs⟩ := andThen_eq_ok.1 hrs
    obtain ⟨v, hv, hint, rfl⟩ := immediate_eq_ok.1 himm
    exact ⟨_, .addi rd rs hv, (register_eq_ok.1 hrd).append (hcomma.append
      ((register_eq_ok.1 hrs).append (hcomma'.append hint)))⟩
  | bra | goto | brn =>
    obtain ⟨l, hl, rfl⟩ := bind_pure_eq_ok.1 h
    refine ⟨[_], ?_, label_eq_ok.1 hl⟩
    constructor
  | branch r =>
    obtain ⟨rs, _, hrs, h⟩ := bind_eq_ok.1 h
    obtain ⟨rt, l, _, _, hrt, hcomma', hl, rfl⟩ := two_eq_ok.1 h
    obtain ⟨_, hcomma, hrt⟩ := andThen_eq_ok.1 hrt
    exact ⟨_, .branch r rs rt l, (register_eq_ok.1 hrs).append (hcomma.append
      ((register_eq_ok.1 hrt).append (hcomma'.append (label_eq_ok.1 hl))))⟩
  | bs | qnop => cases h

end Reader

open Reader

namespace Statement

variable {c d e : Cursor}

/-- A statement that starts like a bundle is one. -/
theorem read_of_startsBundle (h : c.next?.any startsBundle) :
    read.run c = (bundle >>= fun o => pure (.operation o)).run c := by
  have hpeek : peek.run c = (c, .ok c.next?) := rfl
  exact (Work.bind_of_ok hpeek).trans (congrArg (fun p : Reader Statement => p.run c) (if_pos h))

/-- Any other statement is a mnemonic with its operands. -/
theorem read_of_not_startsBundle (h : ¬ c.next?.any startsBundle) :
    read.run c = (take .instruction Token.keyword? rfl >>= operands).run c := by
  have hpeek : peek.run c = (c, .ok c.next?) := rfl
  exact (Work.bind_of_ok hpeek).trans (congrArg (fun p : Reader Statement => p.run c) (if_neg h))

theorem read_of_keyword {k : Keyword} (hk : startsBundle (.keyword k) = false)
    (hc : c.next? = some (.keyword k)) : read.run c = (operands k).run c.advance := by
  have htake : (take .instruction Token.keyword? rfl).run c = (c.advance, .ok k) :=
    take_eq_ok.2 ⟨_, rfl, hc, rfl⟩
  rw [read_of_not_startsBundle (by simp [hc, hk])]
  exact Work.bind_of_ok htake

end Statement

/-- Nothing is read but statements. -/
theorem denotes_of_read {c d : Cursor} {s : Statement} (h : Statement.read.run c = (d, .ok s)) :
    ∃ taken, Denotes taken s.expand ∧ c.Takes taken d := by
  by_cases hc : c.next?.any startsBundle
  · rw [Statement.read_of_startsBundle hc] at h
    obtain ⟨o, ho, rfl⟩ := bind_pure_eq_ok.1 h
    exact denotes_of_bundle ho
  · rw [Statement.read_of_not_startsBundle hc] at h
    obtain ⟨k, m, hk, h⟩ := bind_eq_ok.1 h
    obtain ⟨t, ht, hm⟩ := take_eq_ok.1 hk
    obtain ⟨taken, htaken, hd⟩ := denotes_of_operands h
    cases t with
    | keyword =>
      cases ht
      exact ⟨_, htaken, hm.append hd⟩
    | _ => cases ht

/-- A bundle of the grammar is read in the three steps of its form. -/
theorem Reader.bundle_eq_ok {c d m e : Cursor} {marked : Bool} {pi : UInt32} {ops : List MicroOp}
    {taken : List Token} (hmarked : (eat (.keyword .bs) nofun).run c = (d, .ok marked))
    (hpi : (distance marked).run d = (m, .ok pi)) (h : Listed .bar MicroOpForm taken ops)
    (hm : m.Takes taken e) (he : e.next? ≠ some .bar) :
    bundle.run c = (e, .ok (.bundle pi ops)) :=
  bind_eq_ok.2 ⟨marked, d, hmarked, bind_eq_ok.2 ⟨pi, m, hpi,
    bind_pure_eq_ok.2 ⟨ops, microOps_eq_ok.2 ⟨taken, h, hm, he⟩, rfl⟩⟩⟩

namespace Statement

variable {c d e : Cursor}

/-- A statement with the operands of its mnemonic is read. -/
theorem exists_read_of_keyword {k : Keyword} {s : Statement}
    (hk : startsBundle (.keyword k) = false) (hc : c.next? = some (.keyword k))
    (h : (operands k).run c.advance = (d, .ok s)) :
    ∃ s', read.run c = (d, .ok s') ∧ s'.expand = s.expand :=
  ⟨s, (read_of_keyword hk hc).trans h, rfl⟩

theorem exists_read_of_bundle {o : Operation} (hc : c.next?.any startsBundle)
    (h : bundle.run c = (d, .ok o)) : ∃ s, read.run c = (d, .ok s) ∧ s.expand = [o] := by
  refine ⟨.operation o, ?_, rfl⟩
  rw [read_of_startsBundle hc]
  exact bind_pure_eq_ok.2 ⟨o, h, rfl⟩

section

variable {before taken : List Token} {pi : UInt32} {ops : List MicroOp}
  (h : Listed .bar MicroOpForm taken ops)
include h

/-- A bundle without a distance is read. -/
theorem exists_read_of_listed (hc : c.Takes taken d) (hd : d.next? ≠ some .bar) :
    ∃ s, read.run c = (d, .ok s) ∧ s.expand = [.bundle 1 ops] := by
  have hnext := next?_of_listed h hc
  have hbs : c.next? ≠ some (.keyword .bs) := by
    rcases hnext with e | ⟨name, e⟩ <;> simp [e]
  have hint : c.next?.bind Token.int? = none := by
    rcases hnext with e | ⟨name, e⟩ <;> simp [e, Token.int?]
  have hstart : c.next?.any startsBundle := by
    rcases hnext with e | ⟨name, e⟩ <;> simp [e, startsBundle]
  have hpi : (distance false).run c = (c, .ok 1) := by simp [distance_eq_ok, hint]
  exact exists_read_of_bundle hstart (bundle_eq_ok (eat_eq_false.2 ⟨hbs, rfl⟩) hpi h hc hd)

/-- In front of quantum operations a distance is read. -/
theorem parallelism_of_distance (hbefore : DistanceForm before pi) (hc : c.Takes before d)
    (hops : d.Takes taken e) : parallelism.run c = (d, .ok pi) := by
  have hcomma : d.next? ≠ some .comma := by
    rcases next?_of_listed h hops with e | ⟨name, e⟩ <;> simp [e]
  exact parallelism_eq_ok hbefore hc hcomma

/-- A bundle with a distance is read. -/
theorem exists_read_of_timed (hbefore : DistanceForm before pi) (hc : c.Takes (before ++ taken) d)
    (hd : d.next? ≠ some .bar) : ∃ s, read.run c = (d, .ok s) ∧ s.expand = [.bundle pi ops] := by
  obtain ⟨m, hm, hops⟩ := Cursor.takes_append.1 hc
  obtain ⟨v, hv⟩ := next?_of_distance hbefore hm
  have hpi : (distance false).run c = (m, .ok pi) := by
    simpa [distance_eq_ok, hv, Token.int?] using parallelism_of_distance h hbefore hm hops
  exact exists_read_of_bundle (by simp [hv, startsBundle])
    (bundle_eq_ok (eat_eq_false.2 ⟨by simp [hv], rfl⟩) hpi h hops hd)

/-- A marked bundle is read. -/
theorem exists_read_of_marked (hbefore : DistanceForm before pi)
    (hc : c.Takes (.keyword .bs :: (before ++ taken)) d) (hd : d.next? ≠ some .bar) :
    ∃ s, read.run c = (d, .ok s) ∧ s.expand = [.bundle pi ops] := by
  obtain ⟨hbs, hrest⟩ := hc
  obtain ⟨m, hm, hops⟩ := Cursor.takes_append.1 hrest
  have hpi : (distance true).run c.advance = (m, .ok pi) := by
    simpa [distance_eq_ok] using parallelism_of_distance h hbefore hm hops
  exact exists_read_of_bundle (by simp [hbs, startsBundle])
    (bundle_eq_ok (eat_eq_true.2 ⟨hbs, rfl⟩) hpi h hops hd)

end

end Statement

open Statement

/-- All statements are read, whatever follows that does not go on with a bundle. -/
theorem read_of_denotes {c d : Cursor} {tokens : List Token} {operations : List Operation}
    (h : Denotes tokens operations) (hc : c.Takes tokens d) (hd : d.next? ≠ some .bar) :
    ∃ s, Statement.read.run c = (d, .ok s) ∧ s.expand = operations := by
  cases h with
  | nop | stop =>
    obtain ⟨hkeyword, rfl⟩ := hc
    exact exists_read_of_keyword rfl hkeyword rfl
  | qwait n =>
    obtain ⟨hkeyword, hn⟩ := hc
    have hoperands : (operands .qwait).run c.advance = (d, .ok (.operation (.qwait n))) :=
      bind_pure_eq_ok.2 ⟨_, number_word rfl rfl hn, by simp⟩
    exact exists_read_of_keyword rfl hkeyword hoperands
  | qwaitr rs =>
    obtain ⟨hkeyword, hrs⟩ := hc
    have hoperands : (operands .qwaitr).run c.advance = (d, .ok (.operation (.qwaitr rs))) :=
      bind_pure_eq_ok.2 ⟨_, register_eq_ok.2 hrs, rfl⟩
    exact exists_read_of_keyword rfl hkeyword hoperands
  | smis si h =>
    obtain ⟨hkeyword, hsi, hcomma, hlist⟩ := hc
    have hq := (follows_inBraces follows_qubit _ _ _).2 ⟨_, ⟨_, h, rfl⟩, hlist⟩
    exact exists_read_of_keyword rfl hkeyword (two_eq_ok.2 ⟨_, _, _, _,
      register_eq_ok.2 ⟨hsi, rfl⟩, ⟨hcomma, rfl⟩, hq, rfl⟩)
  | smit ti h =>
    obtain ⟨hkeyword, hti, hcomma, hlist⟩ := hc
    have hp := (follows_inBraces follows_qubitPair _ _ _).2 ⟨_, ⟨_, h, rfl⟩, hlist⟩
    exact exists_read_of_keyword rfl hkeyword (two_eq_ok.2 ⟨_, _, _, _,
      register_eq_ok.2 ⟨hti, rfl⟩, ⟨hcomma, rfl⟩, hp, rfl⟩)
  | not | cmp | fmr | fcvtws | fcvtsw =>
    obtain ⟨hkeyword, hi, hcomma, hj⟩ := hc
    exact exists_read_of_keyword rfl hkeyword (two_eq_ok.2 ⟨_, _, _, _,
      register_eq_ok.2 ⟨hi, rfl⟩, ⟨hcomma, rfl⟩, register_eq_ok.2 hj, rfl⟩)
  | br =>
    obtain ⟨hkeyword, hf, hcomma, hl⟩ := hc
    exact exists_read_of_keyword rfl hkeyword (two_eq_ok.2 ⟨_, _, _, _,
      flag_eq_ok.2 ⟨hf, rfl⟩, ⟨hcomma, rfl⟩, label_eq_ok.2 hl, rfl⟩)
  | fbr =>
    obtain ⟨hkeyword, hf, hcomma, hrd⟩ := hc
    exact exists_read_of_keyword rfl hkeyword (two_eq_ok.2 ⟨_, _, _, _,
      flag_eq_ok.2 ⟨hf, rfl⟩, ⟨hcomma, rfl⟩, register_eq_ok.2 hrd, rfl⟩)
  | ldi rd h =>
    obtain ⟨hkeyword, hrd, hcomma, hv⟩ := hc
    exact exists_read_of_keyword rfl hkeyword (two_eq_ok.2 ⟨_, _, _, _,
      register_eq_ok.2 ⟨hrd, rfl⟩, ⟨hcomma, rfl⟩, immediate_eq_ok.2 ⟨_, h, hv, rfl⟩, rfl⟩)
  | ldui rd rs h =>
    obtain ⟨hkeyword, hrd, hcomma, hrs, hcomma', hn⟩ := hc
    have hsource : (andThen (sourceOr rd)).run c.advance.advance = (_, .ok rs) :=
      andThen_eq_ok.2 ⟨_, ⟨hcomma, rfl⟩, sourceOr_eq_ok.2 (.inl ⟨hrs, hcomma', rfl⟩)⟩
    exact exists_read_of_keyword rfl hkeyword (bind_eq_ok.2 ⟨rd, _, register_eq_ok.2 ⟨hrd, rfl⟩,
      bind_eq_ok.2 ⟨rs, _, hsource, bind_pure_eq_ok.2 ⟨_,
        number_natCast rfl (Int.ofNat_le.2 h) hn, rfl⟩⟩⟩)
  | lduiSame rd h =>
    obtain ⟨hkeyword, hrd, hcomma, hn⟩ := hc
    have hsource : (andThen (sourceOr rd)).run c.advance.advance = (_, .ok rd) :=
      andThen_eq_ok.2 ⟨_, ⟨hcomma, rfl⟩, sourceOr_eq_ok.2 (.inr ⟨by rw [hn.1]; rfl, rfl, rfl⟩)⟩
    exact exists_read_of_keyword rfl hkeyword (bind_eq_ok.2 ⟨rd, _, register_eq_ok.2 ⟨hrd, rfl⟩,
      bind_eq_ok.2 ⟨rd, _, hsource, bind_pure_eq_ok.2 ⟨_,
        number_natCast rfl (Int.ofNat_le.2 h) hn, rfl⟩⟩⟩)
  | alu | fpu | fcmp =>
    obtain ⟨hkeyword, hi, hcomma, hj, hcomma', hk⟩ := hc
    exact exists_read_of_keyword rfl hkeyword (bind_pure_eq_ok.2 ⟨(_, _, _),
      three_eq_ok.2 ⟨_, _, _, _, register_eq_ok.2 ⟨hi, rfl⟩, ⟨hcomma, rfl⟩,
        register_eq_ok.2 ⟨hj, rfl⟩, ⟨hcomma', rfl⟩, register_eq_ok.2 hk⟩, rfl⟩)
  | load op i h | store op i h | flw i h | fsw i h =>
    obtain ⟨hkeyword, hi, hcomma, hx⟩ := hc
    have hx := (follows_address _ (_, _) _).2 ⟨_, h, hx⟩
    exact exists_read_of_keyword rfl hkeyword (two_eq_ok.2 ⟨_, _, _, _,
      register_eq_ok.2 ⟨hi, rfl⟩, ⟨hcomma, rfl⟩, hx, rfl⟩)
  | addi rd rs h =>
    obtain ⟨hkeyword, hrd, hcomma, hrs, hcomma', hv⟩ := hc
    have hsource := andThen_eq_ok.2 ⟨_, ⟨hcomma, rfl⟩, register_eq_ok.2 ⟨hrs, rfl⟩⟩
    exact exists_read_of_keyword rfl hkeyword (bind_eq_ok.2 ⟨rd, _, register_eq_ok.2 ⟨hrd, rfl⟩,
      two_eq_ok.2 ⟨rs, _, _, _, hsource, ⟨hcomma', rfl⟩, immediate_eq_ok.2 ⟨_, h, hv, rfl⟩, rfl⟩⟩)
  | bra | goto | brn =>
    obtain ⟨hkeyword, hl⟩ := hc
    exact exists_read_of_keyword rfl hkeyword (bind_pure_eq_ok.2 ⟨_, label_eq_ok.2 hl, rfl⟩)
  | branch r rs rt label =>
    obtain ⟨hkeyword, hrs, hcomma, hrt, hcomma', hl⟩ := hc
    have hsecond := andThen_eq_ok.2 ⟨_, ⟨hcomma, rfl⟩, register_eq_ok.2 ⟨hrt, rfl⟩⟩
    exact exists_read_of_keyword rfl hkeyword (bind_eq_ok.2 ⟨rs, _, register_eq_ok.2 ⟨hrs, rfl⟩,
      two_eq_ok.2 ⟨rt, label, _, _, hsecond, ⟨hcomma', rfl⟩, label_eq_ok.2 hl, rfl⟩⟩)
  | bundle h => exact exists_read_of_listed h hc hd
  | timed hbefore h => exact exists_read_of_timed h hbefore hc hd
  | marked hbefore h => exact exists_read_of_marked h hbefore hc hd

/-- A statement stands for the operations of one form only. -/
theorem Denotes.unique {tokens : List Token} {operations others : List Operation}
    (h : Denotes tokens operations) (h' : Denotes tokens others) : operations = others := by
  have hc := Cursor.takes_prepend ⟨[], 1⟩ (tokens.map (⟨·, 1⟩))
  have htokens : (tokens.map fun t => (⟨t, 1⟩ : LineToken)).map (·.token) = tokens := by
    simp [Function.comp_def]
  rw [htokens] at hc
  obtain ⟨s, hs, rfl⟩ := read_of_denotes h hc (by simp [Cursor.next?])
  obtain ⟨t, ht, rfl⟩ := read_of_denotes h' hc (by simp [Cursor.next?])
  cases hs.symm.trans ht
  rfl

/-! ## Lines -/

/-- A line holds a statement if one is read that fills it. -/
theorem readBody_eq_some {c d : Cursor} {s : Statement} : readBody c = (d, .ok (some s)) ↔
    ¬ c.atLineEnd ∧ ∃ m, Statement.read.run c = (m, .ok s) ∧ m.atLineEnd ∧ d = m.advance := by
  constructor
  · intro h
    cases readsBody_of_readBody h with
    | statement hc hs hm => exact ⟨hc, _, hs, hm, rfl⟩
  · rintro ⟨hc, m, hs, hm, rfl⟩
    have hend : lineEnd m = (m.advance, .ok ()) := if_pos hm
    rw [readBody, if_neg hc, Work.bind_of_ok hs, Work.bind_of_ok hend]
    rfl

/-- A line holds nothing if it ends at once. -/
theorem readBody_eq_none {c d : Cursor} :
    readBody c = (d, .ok none) ↔ c.atLineEnd ∧ d = c.advance := by
  constructor
  · intro h
    cases readsBody_of_readBody h with
    | empty hc => exact ⟨hc, rfl⟩
  · rintro ⟨hc, rfl⟩
    exact if_pos hc

/-- The tokens in front of the end of a line are the line. -/
theorem Cursor.Takes.eq_line {line : List LineToken} {e : Cursor} {tokens : List Token}
    (h : (e.prepend line).Takes tokens e) : tokens = line.map (·.token) := by
  obtain ⟨other, rfl, hprepend⟩ := h.exists_prepend
  have hlines : line ++ e.left = other ++ e.left := congrArg Cursor.left hprepend
  rw [List.append_cancel_right hlines]

/-- A line ends behind its last token. -/
theorem Cursor.eq_nil_of_atLineEnd {line : List LineToken} {e : Cursor} (hline : OnOneLine line)
    (h : (e.prepend line).atLineEnd) : line = [] := by
  cases line with
  | nil => rfl
  | cons t line =>
    have ht : t.token ≠ .newline := hline t List.mem_cons_self
    exact absurd h (by simpa [Cursor.atLineEnd] using ht)

section

variable {line : List LineToken} {e : Cursor} (hline : OnOneLine line) (he : e.atLineEnd)
include hline he

/-- A statement that fills its line leaves the end of the line. -/
theorem Statement.eq_of_read {d : Cursor} {s : Statement}
    (h : read.run (e.prepend line) = (d, .ok s)) (hd : d.atLineEnd) : d = e := by
  obtain ⟨left, r, hleft⟩ := read.keeps line e hline he
  rw [hleft.run e (.refl e)] at h
  cases h
  rw [Cursor.eq_nil_of_atLineEnd (hline.of_suffix hleft.suffix) hd, Cursor.prepend_nil]

/-- What is read of a line up to its end is what the line denotes. -/
theorem denotes_of_read_line {d : Cursor} {s : Statement}
    (h : Statement.read.run (e.prepend line) = (d, .ok s)) (hd : d.atLineEnd) :
    Denotes (line.map (·.token)) s.expand := by
  obtain rfl := Statement.eq_of_read hline he h hd
  obtain ⟨taken, htaken, hc⟩ := denotes_of_read h
  rwa [← hc.eq_line]

omit hline in
/-- A statement of the grammar is read from a line of its tokens. -/
theorem exists_read_line {operations : List Operation}
    (h : Denotes (line.map (·.token)) operations) :
    ∃ s, Statement.read.run (e.prepend line) = (e, .ok s) ∧ s.expand = operations := by
  have hbar : e.next? ≠ some .bar := by
    rcases Cursor.atLineEnd_iff.1 he with h | h <;> simp [h]
  exact read_of_denotes h (e.takes_prepend line) hbar

/-- **The grammar is read exactly.** From a line a statement that fills it is read if its tokens are
a statement of the grammar, and only then, and it stands for the operations of the form. So a line
without labels is accepted with these operations, or it is refused. What is accepted leaves the end
of its line, and then goes on behind it. -/
theorem Statement.read_iff_denotes (operations : List Operation) :
    ((∃ s d, read.run (e.prepend line) = (d, .ok s) ∧ d.atLineEnd ∧ s.expand = operations) ↔
      Denotes (line.map (·.token)) operations) ∧
    ((∃ s d, readBody (e.prepend line) = (d, .ok (some s)) ∧ s.expand = operations) ↔
      Denotes (line.map (·.token)) operations) ∧
    (∀ s d, read.run (e.prepend line) = (d, .ok s) → d.atLineEnd → d = e) ∧
    ∀ s d, readBody (e.prepend line) = (d, .ok (some s)) → d = e.advance := by
  refine ⟨⟨?_, ?_⟩, ⟨?_, ?_⟩, fun s d => eq_of_read hline he, ?_⟩
  · rintro ⟨s, d, hs, hd, rfl⟩
    exact denotes_of_read_line hline he hs hd
  · intro h
    obtain ⟨s, hs, rfl⟩ := exists_read_line he h
    exact ⟨s, e, hs, he, rfl⟩
  · rintro ⟨s, d, hs, rfl⟩
    obtain ⟨-, m, hs, hm, -⟩ := readBody_eq_some.1 hs
    exact denotes_of_read_line hline he hs hm
  · intro h
    obtain ⟨s, hs, rfl⟩ := exists_read_line he h
    refine ⟨s, e.advance, readBody_eq_some.2 ⟨fun hend => ?_, e, hs, he, rfl⟩, rfl⟩
    rw [Cursor.eq_nil_of_atLineEnd hline hend] at h
    exact h.ne_nil rfl
  · intro s d hs
    obtain ⟨-, m, hread, hm, rfl⟩ := readBody_eq_some.1 hs
    rw [eq_of_read hline he hread hm]

end

/-- A branch that compares registers, and a wait for a negative time. -/
theorem Statement.read_iff_denotes_of_branch :
    (∃ s d, readBody (Cursor.start [⟨.keyword (.branch .eq), 1⟩, ⟨.register .general 1, 1⟩,
      ⟨.comma, 1⟩, ⟨.register .general 2, 1⟩, ⟨.comma, 1⟩, ⟨.ident "loop", 1⟩]) =
        (d, .ok (some s)) ∧ s.expand = [.cmp 1 2, .br (.relation .eq) "loop"]) ∧
    ∀ operations, ¬ Denotes [.keyword .qwait, .int (-1)] operations := by
  constructor
  · have hline : OnOneLine [⟨.keyword (.branch .eq), 1⟩, ⟨.register .general 1, 1⟩,
        ⟨.comma, 1⟩, ⟨.register .general 2, 1⟩, ⟨.comma, 1⟩, ⟨.ident "loop", 1⟩] := by
      simp [OnOneLine]
    exact (@Statement.read_iff_denotes _ ⟨[], 1⟩ hline rfl _).2.1.2 (.branch .eq 1 2 "loop")
  · intro operations h
    have hline : OnOneLine [⟨.keyword .qwait, 1⟩, ⟨.int (-1), 1⟩] := by simp [OnOneLine]
    obtain ⟨s, d, hs, -⟩ := (@Statement.read_iff_denotes _ ⟨[], 1⟩ hline rfl operations).1.2 h
    cases hs

end Eqasm
