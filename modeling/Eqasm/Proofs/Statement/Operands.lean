import Eqasm.Proofs.Statement.Grammar
import Eqasm.Proofs.Work
import Eqasm.Statement.Reading

/-!
# What readers take

Which tokens a reader took when it succeeded. A reader of a form takes just the tokens of the form,
whatever follows them (`Reader.Follows`). A list goes on as long as there is a separator, so it is
read if no further one follows (`Reader.list_eq_ok`).
-/

namespace Eqasm

/-! ## Tokens between two places -/

namespace Cursor

/-- From the first place on there are these tokens, and behind them is the second place. -/
def Takes (c : Cursor) : List Token → Cursor → Prop
  | [], d => c = d
  | t :: ts, d => c.next? = some t ∧ c.advance.Takes ts d

variable {c d e : Cursor}

theorem takes_append {xs ys : List Token} :
    c.Takes (xs ++ ys) e ↔ ∃ d, c.Takes xs d ∧ d.Takes ys e := by
  induction xs generalizing c with
  | nil => simp [Takes]
  | cons t xs ih => simp [Takes, ih, and_assoc]

theorem Takes.append {xs ys : List Token} (h : c.Takes xs d) (h' : d.Takes ys e) :
    c.Takes (xs ++ ys) e :=
  takes_append.2 ⟨d, h, h'⟩

/-- In front of a place there are the tokens that are put there. -/
theorem takes_prepend (d : Cursor) (ts : List LineToken) :
    (d.prepend ts).Takes (ts.map (·.token)) d := by
  induction ts with
  | nil => rfl
  | cons t ts ih => exact ⟨rfl, ih⟩

theorem Takes.exists_prepend {ts : List Token} (h : c.Takes ts d) :
    ∃ line : List LineToken, line.map (·.token) = ts ∧ c = d.prepend line := by
  induction ts generalizing c with
  | nil => exact ⟨[], rfl, h⟩
  | cons t ts ih =>
    obtain ⟨hnext, hrest⟩ := h
    obtain ⟨line, rfl, e⟩ := ih hrest
    obtain ⟨_ | ⟨u, left⟩, lastLine⟩ := c
    · cases hnext
    · cases hnext
      exact ⟨u :: line, rfl, by cases e; rfl⟩

end Cursor

namespace Reader

variable {α β γ : Type} {c d e : Cursor}

/-! ## What readers took -/

theorem bind_eq_ok {p : Reader α} {q : α → Reader β} {b : β} :
    (p >>= q).run c = (e, .ok b) ↔ ∃ a d, p.run c = (d, .ok a) ∧ (q a).run d = (e, .ok b) :=
  Work.bind_eq_ok

/-- What a reader gives is put into a value. -/
theorem bind_pure_eq_ok {p : Reader α} {f : α → β} {b : β} :
    (p >>= fun a => pure (f a)).run c = (d, .ok b) ↔ ∃ a, p.run c = (d, .ok a) ∧ f a = b := by
  rw [bind_eq_ok]
  constructor
  · rintro ⟨a, _, ha, ⟨⟩⟩
    exact ⟨a, ha, rfl⟩
  · rintro ⟨a, ha, rfl⟩
    exact ⟨a, d, ha, rfl⟩

theorem accept_eq_some {meaning : Token → Option α} {h : meaning .newline = none} {a : α} :
    (accept meaning h).run c = (d, .ok (some a)) ↔ ∃ t, meaning t = some a ∧ c.Takes [t] d := by
  cases hnext : c.next? with
  | none => simp [accept, Cursor.Takes, hnext]
  | some t =>
    have hone : (∃ u, meaning u = some a ∧ c.Takes [u] d) ↔ meaning t = some a ∧ c.advance = d := by
      constructor
      · rintro ⟨u, hu, hc, hd⟩
        cases hnext.symm.trans hc
        exact ⟨hu, hd⟩
      · rintro ⟨ht, hd⟩
        exact ⟨t, ht, hnext, hd⟩
    rw [hone]
    cases ht : meaning t <;> simp [accept, hnext, ht, and_comm]

/-- A token without a meaning is left. -/
theorem accept_eq_none {meaning : Token → Option α} {h : meaning .newline = none} :
    (accept meaning h).run c = (d, .ok none) ↔ c.next?.bind meaning = none ∧ c = d := by
  cases hc : c.next?.bind meaning <;> simp [accept, hc]

theorem take_eq_ok {wanted : Expectation} {meaning : Token → Option α}
    {h : meaning .newline = none} {a : α} :
    (take wanted meaning h).run c = (d, .ok a) ↔ ∃ t, meaning t = some a ∧ c.Takes [t] d := by
  rw [← accept_eq_some (h := h), take, bind_eq_ok]
  constructor
  · rintro ⟨_ | b, m, hm, e⟩
    · cases e
    · cases e
      exact hm
  · exact fun ha => ⟨some a, d, ha, rfl⟩

/-- A reader of one token took it, if only one token has the meaning. -/
theorem take_eq_ok_of_iff {wanted : Expectation} {meaning : Token → Option α}
    {h : meaning .newline = none} {token : α → Token}
    (htoken : ∀ t a, meaning t = some a ↔ t = token a) {a : α} :
    (take wanted meaning h).run c = (d, .ok a) ↔ c.Takes [token a] d := by
  simp only [take_eq_ok, htoken, exists_eq_left]

theorem sign_eq_ok {t : Token} {h : t ≠ .newline} {u : Unit} :
    (sign t h).run c = (d, .ok u) ↔ c.Takes [t] d := by
  have hone : ∀ t' u, only t t' = some u ↔ t' = Function.const Unit t u := by
    simp [only]
  exact take_eq_ok_of_iff hone

theorem eat_eq_true {t : Token} {h : t ≠ .newline} :
    (eat t h).run c = (d, .ok true) ↔ c.Takes [t] d := by
  by_cases hc : c.next? = some t
  · simp [run_eat_of_eq h hc, Cursor.Takes, hc]
  · simp [run_eat_of_ne h hc, Cursor.Takes, hc]

theorem eat_eq_false {t : Token} {h : t ≠ .newline} :
    (eat t h).run c = (d, .ok false) ↔ c.next? ≠ some t ∧ c = d := by
  by_cases hc : c.next? = some t
  · simp [run_eat_of_eq h hc, hc]
  · simp [run_eat_of_ne h hc, hc]

theorem register_eq_ok {k : RegisterClass} {i : Nat} :
    (register k).run c = (d, .ok i) ↔ c.Takes [.register k i] d :=
  take_eq_ok_of_iff fun t i => by cases t <;> simp [Token.register?]

theorem register?_eq_some {k : RegisterClass} {h : Token.register? k .newline = none} {i : Nat} :
    (accept (Token.register? k) h).run c = (d, .ok (some i)) ↔ c.Takes [.register k i] d :=
  (accept_eq_some.trans take_eq_ok.symm).trans register_eq_ok

theorem flag_eq_ok {f : Flag} : flag.run c = (d, .ok f) ↔ c.Takes [.flag f] d :=
  take_eq_ok_of_iff fun t f => by cases t <;> simp [Token.flag?]

theorem label_eq_ok {name : String} : label.run c = (d, .ok name) ↔ c.Takes [.ident name] d :=
  take_eq_ok_of_iff fun t name => by cases t <;> simp [Token.ident?]

theorem gate_eq_ok {name : String} : gate.run c = (d, .ok name) ↔ c.Takes [.ident name] d :=
  take_eq_ok_of_iff fun t name => by cases t <;> simp [Token.ident?]

theorem integer_eq_ok {v : Int} : integer.run c = (d, .ok v) ↔ c.Takes [.int v] d :=
  take_eq_ok_of_iff fun t v => by cases t <;> simp [Token.int?]

theorem checked_eq_ok {p : Reader α} {problem? : α → Option Problem} {a : α} :
    (p.checked problem?).run c = (d, .ok a) ↔ p.run c = (d, .ok a) ∧ problem? a = none := by
  rw [run_checked, Work.bind_eq_ok]
  constructor
  · rintro ⟨b, m, hb, h⟩
    cases hproblem : problem? b with
    | none =>
      simp only [Work.look, hproblem] at h
      cases h
      exact ⟨hb, hproblem⟩
    | some problem => simp [Work.look, hproblem] at h
  · rintro ⟨ha, hproblem⟩
    exact ⟨a, d, ha, by simp [Work.look, hproblem]⟩

theorem number_eq_ok {q : Quantity} {v : Int} :
    (number q).run c = (d, .ok v) ↔ c.Takes [.int v] d ∧ q.least ≤ v ∧ v ≤ q.greatest := by
  rw [number, checked_eq_ok, integer_eq_ok]
  simp

/-- A number out of its range is taken, and is a problem of the place where it stands. -/
theorem number_of_outOfRange {q : Quantity} {v : Int} (hc : c.Takes [.int v] d)
    (h : ¬ (q.least ≤ v ∧ v ≤ q.greatest)) :
    (number q).run c = (d, .error ⟨c.line, .outOfRange q v⟩) := by
  have hi : integer.run c = (d, .ok v) := integer_eq_ok.2 hc
  rw [number, run_checked, Work.bind_of_ok hi, if_neg h]
  rfl

theorem andThen_eq_ok {p : Reader α} {a : α} : (andThen p).run c = (e, .ok a) ↔
    ∃ d, c.Takes [.comma] d ∧ p.run d = (e, .ok a) := by
  rw [andThen, bind_eq_ok]
  constructor
  · rintro ⟨_, d, hcomma, h⟩
    exact ⟨d, sign_eq_ok.1 hcomma, h⟩
  · rintro ⟨d, hcomma, h⟩
    exact ⟨(), d, sign_eq_ok.2 hcomma, h⟩

/-- Two operands with a comma between them. -/
theorem two_eq_ok {p : Reader α} {q : Reader β} {f : α → β → γ} {x : γ} :
    (p >>= fun a => andThen q >>= fun b => pure (f a b)).run c = (e, .ok x) ↔
      ∃ a b d d', p.run c = (d, .ok a) ∧ d.Takes [.comma] d' ∧ q.run d' = (e, .ok b) ∧
        f a b = x := by
  constructor
  · intro h
    obtain ⟨a, d, ha, h⟩ := bind_eq_ok.1 h
    obtain ⟨b, hb, rfl⟩ := bind_pure_eq_ok.1 h
    obtain ⟨d', hcomma, hb⟩ := andThen_eq_ok.1 hb
    exact ⟨a, b, d, d', ha, hcomma, hb, rfl⟩
  · rintro ⟨a, b, d, d', ha, hcomma, hb, rfl⟩
    exact bind_eq_ok.2 ⟨a, d, ha, bind_pure_eq_ok.2 ⟨b, andThen_eq_ok.2 ⟨d', hcomma, hb⟩, rfl⟩⟩

/-- Three operands with commas between them. -/
theorem three_eq_ok {p : Reader α} {q : Reader β} {x : α × β × β} :
    (three p q).run c = (e, .ok x) ↔ ∃ d₁ d₂ d₃ d₄, p.run c = (d₁, .ok x.1) ∧
      d₁.Takes [.comma] d₂ ∧ q.run d₂ = (d₃, .ok x.2.1) ∧ d₃.Takes [.comma] d₄ ∧
      q.run d₄ = (e, .ok x.2.2) := by
  constructor
  · intro h
    obtain ⟨a, d₁, ha, h⟩ := bind_eq_ok.1 h
    obtain ⟨b, z, d₃, d₄, hb, hcomma', hz, rfl⟩ := two_eq_ok.1 h
    obtain ⟨d₂, hcomma, hb⟩ := andThen_eq_ok.1 hb
    exact ⟨d₁, d₂, d₃, d₄, ha, hcomma, hb, hcomma', hz⟩
  · rintro ⟨d₁, d₂, d₃, d₄, ha, hcomma, hb, hcomma', hz⟩
    exact bind_eq_ok.2 ⟨_, d₁, ha, two_eq_ok.2 ⟨_, _, d₃, d₄, andThen_eq_ok.2 ⟨d₂, hcomma, hb⟩,
      hcomma', hz, rfl⟩⟩

/-! ## Numbers -/

/-- A number that is not negative, as a natural number. -/
theorem exists_of_number {q : Quantity} (hq : q.least = 0) {v : Int}
    (h : (number q).run c = (d, .ok v)) :
    ∃ n : Nat, c.Takes [.int n] d ∧ v = n ∧ n ≤ q.greatest := by
  obtain ⟨hv, hl, hg⟩ := number_eq_ok.1 h
  rw [hq] at hl
  obtain ⟨n, rfl⟩ := Int.eq_ofNat_of_zero_le hl
  exact ⟨n, hv, rfl, hg⟩

theorem number_natCast {q : Quantity} {n : Nat} (hl : q.least = 0) (hg : n ≤ q.greatest)
    (h : c.Takes [.int n] d) : (number q).run c = (d, .ok (n : Int)) :=
  number_eq_ok.2 ⟨h, by omega, hg⟩

/-- A number in the range of unsigned numbers of 32 bits. -/
theorem exists_word_of_number {q : Quantity} (hl : q.least = 0) (hg : q.greatest = 0xFFFFFFFF)
    {v : Int} (h : (number q).run c = (d, .ok v)) :
    ∃ w : UInt32, c.Takes [.int w.toNat] d ∧ UInt32.ofNat v.toNat = w := by
  obtain ⟨n, hn, rfl, hle⟩ := exists_of_number hl h
  have hlt : n < UInt32.size := by
    simp only [UInt32.size]
    omega
  exact ⟨.ofNat n, by rwa [UInt32.toNat_ofNat_of_lt' hlt], by rw [Int.toNat_natCast]⟩

theorem number_word {q : Quantity} (hl : q.least = 0) (hg : q.greatest = 0xFFFFFFFF) {w : UInt32}
    (h : c.Takes [.int w.toNat] d) : (number q).run c = (d, .ok (w.toNat : Int)) := by
  have hw := w.toNat_lt
  exact number_natCast hl (by omega) h

theorem immediate_eq_ok {imm : Int32} : immediate.run c = (d, .ok imm) ↔
    ∃ v, IsImmediate v ∧ c.Takes [.int v] d ∧ .ofInt v = imm := by
  simp only [immediate, bind_pure_eq_ok, number_eq_ok]
  constructor
  · rintro ⟨v, ⟨hv, hrange⟩, e⟩
    exact ⟨v, hrange, hv, e⟩
  · rintro ⟨v, hrange, hv, e⟩
    exact ⟨v, ⟨hv, hrange⟩, e⟩

theorem offset_eq_ok {offset : Int32} :
    Reader.offset.run c = (d, .ok offset) ↔ c.Takes [.int offset.toInt] d := by
  rw [Reader.offset, bind_pure_eq_ok]
  constructor
  · rintro ⟨v, hv, rfl⟩
    obtain ⟨hv, hl, hg⟩ := number_eq_ok.1 hv
    rwa [Int32.toInt_ofInt_of_le hl (Int.lt_add_one_of_le hg)]
  · intro h
    have hl : -0x80000000 ≤ offset.toInt := Int32.le_toInt offset
    have hg : offset.toInt ≤ 0x7FFFFFFF := Int.le_of_lt_add_one (Int32.toInt_lt offset)
    exact ⟨offset.toInt, number_eq_ok.2 ⟨h, hl, hg⟩, Int32.ofInt_toInt offset⟩

/-! ## Forms -/

/-- The reader takes tokens of a form and leaves the others. -/
def Follows (p : Reader α) (Form : List Token → α → Prop) : Prop :=
  ∀ c a d, p.run c = (d, .ok a) ↔ ∃ taken, Form taken a ∧ c.Takes taken d

theorem follows_qubit : qubit.Follows QubitForm := by
  intro c q d
  rw [qubit, bind_pure_eq_ok]
  constructor
  · rintro ⟨v, hv, rfl⟩
    obtain ⟨n, hn, rfl, hle⟩ := exists_of_number rfl hv
    exact ⟨_, .index (Int.ofNat_le.1 hle), hn⟩
  · rintro ⟨_, ⟨hq⟩, hc⟩
    exact ⟨q, number_natCast rfl (Int.ofNat_le.2 hq) hc, Int.toNat_natCast q⟩

theorem follows_qubitPair : qubitPair.Follows PairForm := by
  intro c p d
  constructor
  · intro h
    obtain ⟨_, _, hopen, h⟩ := bind_eq_ok.1 h
    obtain ⟨a, _, ha, h⟩ := bind_eq_ok.1 h
    obtain ⟨b, _, hb, h⟩ := bind_eq_ok.1 h
    obtain ⟨_, hclose, rfl⟩ := bind_pure_eq_ok.1 h
    obtain ⟨_, hcomma, hb⟩ := andThen_eq_ok.1 hb
    obtain ⟨_, ⟨hqa⟩, ha⟩ := (follows_qubit _ _ _).1 ha
    obtain ⟨_, ⟨hqb⟩, hb⟩ := (follows_qubit _ _ _).1 hb
    exact ⟨_, .pair hqa hqb, (sign_eq_ok.1 hopen).append (ha.append (hcomma.append
      (hb.append (sign_eq_ok.1 hclose))))⟩
  · rintro ⟨_, @⟨a, b, ha, hb⟩, hopen, hnexta, hcomma, hnextb, hclose⟩
    have hqa := (follows_qubit _ a _).2 ⟨_, .index ha, hnexta, rfl⟩
    have hqb := (follows_qubit _ b _).2 ⟨_, .index hb, hnextb, rfl⟩
    exact bind_eq_ok.2 ⟨(), _, sign_eq_ok.2 ⟨hopen, rfl⟩, bind_eq_ok.2 ⟨a, _, hqa,
      bind_eq_ok.2 ⟨b, _, andThen_eq_ok.2 ⟨_, ⟨hcomma, rfl⟩, hqb⟩,
        bind_pure_eq_ok.2 ⟨(), sign_eq_ok.2 hclose, rfl⟩⟩⟩⟩

theorem follows_address : address.Follows fun taken x => AddressForm taken x.1 x.2 := by
  intro c x e
  rw [address, bind_eq_ok]
  constructor
  · rintro ⟨_ | base, d, hbase, h⟩
    · obtain ⟨-, rfl⟩ := accept_eq_none.1 hbase
      obtain ⟨offset, _, hoffset, h⟩ := bind_eq_ok.1 h
      obtain ⟨_, _, hopen, h⟩ := bind_eq_ok.1 h
      obtain ⟨base, _, hbase, h⟩ := bind_eq_ok.1 h
      obtain ⟨_, hclose, rfl⟩ := bind_pure_eq_ok.1 h
      exact ⟨_, .offsetFirst offset base, (offset_eq_ok.1 hoffset).append
        ((sign_eq_ok.1 hopen).append ((register_eq_ok.1 hbase).append (sign_eq_ok.1 hclose)))⟩
    · obtain ⟨_, _, hopen, h⟩ := bind_eq_ok.1 h
      obtain ⟨offset, _, hoffset, h⟩ := bind_eq_ok.1 h
      obtain ⟨_, hclose, rfl⟩ := bind_pure_eq_ok.1 h
      exact ⟨_, .baseFirst offset base, (register?_eq_some.1 hbase).append
        ((sign_eq_ok.1 hopen).append ((offset_eq_ok.1 hoffset).append (sign_eq_ok.1 hclose)))⟩
  · obtain ⟨offset, base⟩ := x
    rintro ⟨_, h, hc⟩
    cases h with
    | offsetFirst =>
      obtain ⟨hoffset, hopen, hbase, hclose⟩ := hc
      refine ⟨none, c, accept_eq_none.2 ⟨by rw [hoffset]; rfl, rfl⟩, ?_⟩
      exact bind_eq_ok.2 ⟨offset, _, offset_eq_ok.2 ⟨hoffset, rfl⟩, bind_eq_ok.2 ⟨(), _,
        sign_eq_ok.2 ⟨hopen, rfl⟩, bind_eq_ok.2 ⟨base, _, register_eq_ok.2 ⟨hbase, rfl⟩,
          bind_pure_eq_ok.2 ⟨(), sign_eq_ok.2 hclose, rfl⟩⟩⟩⟩
    | baseFirst =>
      obtain ⟨hbase, hopen, hoffset, hclose⟩ := hc
      refine ⟨some base, _, register?_eq_some.2 ⟨hbase, rfl⟩, ?_⟩
      exact bind_eq_ok.2 ⟨(), _, sign_eq_ok.2 ⟨hopen, rfl⟩, bind_eq_ok.2 ⟨offset, _,
        offset_eq_ok.2 ⟨hoffset, rfl⟩, bind_pure_eq_ok.2 ⟨(), sign_eq_ok.2 hclose, rfl⟩⟩⟩

theorem sourceOr_eq_ok {rd rs : Nat} : (sourceOr rd).run c = (e, .ok rs) ↔
    c.Takes [.register .general rs, .comma] e ∨
      c.next?.bind (Token.register? .general) = none ∧ rs = rd ∧ c = e := by
  rw [sourceOr, bind_eq_ok]
  constructor
  · rintro ⟨_ | i, d, hi, h⟩
    · cases h
      obtain ⟨hnone, rfl⟩ := accept_eq_none.1 hi
      exact .inr ⟨hnone, rfl, rfl⟩
    · obtain ⟨_, hcomma, rfl⟩ := bind_pure_eq_ok.1 h
      exact .inl ((register?_eq_some.1 hi).append (sign_eq_ok.1 hcomma))
  · rintro (⟨hrs, hcomma⟩ | ⟨hnone, rfl, rfl⟩)
    · exact ⟨some rs, _, register?_eq_some.2 ⟨hrs, rfl⟩,
        bind_pure_eq_ok.2 ⟨(), sign_eq_ok.2 hcomma, rfl⟩⟩
    · exact ⟨none, c, accept_eq_none.2 ⟨hnone, rfl⟩, rfl⟩

theorem follows_microOp : microOp.Follows MicroOpForm := by
  intro c o e
  rw [microOp, bind_eq_ok]
  constructor
  · rintro ⟨_ | _, d, hqnop, h⟩
    · obtain ⟨-, rfl⟩ := eat_eq_false.1 hqnop
      obtain ⟨name, _, hname, h⟩ := bind_eq_ok.1 h
      obtain ⟨t, ht, rfl⟩ := bind_pure_eq_ok.1 h
      obtain ⟨r, hr, ht⟩ := take_eq_ok.1 ht
      have htaken := (gate_eq_ok.1 hname).append ht
      cases r with
      | register k i =>
        cases k with
        | single =>
          cases hr
          exact ⟨_, .single name i, htaken⟩
        | pair =>
          cases hr
          exact ⟨_, .pair name i, htaken⟩
        | _ => cases hr
      | _ => cases hr
    · cases h
      exact ⟨_, .qnop, eat_eq_true.1 hqnop⟩
  · rintro ⟨_, h, hc⟩
    cases h with
    | qnop => exact ⟨true, e, eat_eq_true.2 hc, rfl⟩
    | single | pair =>
      obtain ⟨hname, htarget⟩ := hc
      refine ⟨false, c, eat_eq_false.2 ⟨by simp [hname], rfl⟩, ?_⟩
      exact bind_eq_ok.2 ⟨_, _, gate_eq_ok.2 ⟨hname, rfl⟩,
        bind_pure_eq_ok.2 ⟨_, take_eq_ok.2 ⟨_, rfl, htarget⟩, rfl⟩⟩

/-! ## Lists -/

section

variable {separator : Token} {hs : separator ≠ .newline} {item : Reader α}

/-- Behind a separator there is a list. -/
theorem separated_of_eq (h : c.next? = some separator) :
    (separated separator hs item).run c = (list separator hs item).run c.advance := by
  change separated.loop separator item c = _
  rw [separated.loop_eq separator hs item, Work.bind_of_ok (run_eat_of_eq hs h), if_pos rfl]
  rfl

theorem separated_of_ne (h : c.next? ≠ some separator) :
    (separated separator hs item).run c = (c, .ok []) := by
  change separated.loop separator item c = _
  rw [separated.loop_eq separator hs item, Work.bind_of_ok (run_eat_of_ne hs h)]
  rfl

variable {Form : List Token → α → Prop}

/-- What is read of a list is a list, and no separator stands behind it. -/
theorem listed_of_list (hitem : item.Follows Form) {as : List α}
    (e : (list separator hs item).run c = (d, .ok as)) :
    ∃ taken, Listed separator Form taken as ∧ c.Takes taken d ∧ d.next? ≠ some separator := by
  -- the induction is on the number of tokens, as each item but the first is behind a separator
  induction hn : c.left.length using Nat.strongRecOn generalizing c as with
  | ind n ih =>
    obtain ⟨a, m, ha, e⟩ := bind_eq_ok.1 e
    obtain ⟨as, has, rfl⟩ := bind_pure_eq_ok.1 e
    obtain ⟨first, hfirst, htaken⟩ := (hitem _ _ _).1 ha
    by_cases hm : m.next? = some separator
    · rw [separated_of_eq hm] at has
      have hlt : m.advance.left.length < n := by
        have hsuffix := item.suffix_run c
        rw [ha] at hsuffix
        exact hn ▸ Nat.lt_of_lt_of_le (Cursor.length_advance (by simp [hm])) hsuffix.length_le
      obtain ⟨others, hothers, hrest, hd⟩ := ih _ hlt has rfl
      exact ⟨_, .cons hfirst hothers, htaken.append ⟨hm, hrest⟩, hd⟩
    · rw [separated_of_ne hm] at has
      cases has
      exact ⟨first, .one hfirst, htaken, hm⟩

/-- A list is read up to the first token that is no separator. -/
theorem list_eq_ok (hitem : item.Follows Form) {as : List α} :
    (list separator hs item).run c = (d, .ok as) ↔
      ∃ taken, Listed separator Form taken as ∧ c.Takes taken d ∧ d.next? ≠ some separator := by
  refine ⟨listed_of_list hitem, ?_⟩
  rintro ⟨taken, hlisted, hc, hd⟩
  induction hlisted generalizing c with
  | one ha =>
    exact bind_eq_ok.2 ⟨_, d, (hitem _ _ _).2 ⟨_, ha, hc⟩,
      bind_pure_eq_ok.2 ⟨[], separated_of_ne hd, rfl⟩⟩
  | cons ha _ ih =>
    obtain ⟨m, hfirst, hseparator, hothers⟩ := Cursor.takes_append.1 hc
    exact bind_eq_ok.2 ⟨_, m, (hitem _ _ _).2 ⟨_, ha, hfirst⟩,
      bind_pure_eq_ok.2 ⟨_, (separated_of_eq hseparator).trans (ih hothers), rfl⟩⟩

theorem follows_inBraces (hitem : item.Follows Form) :
    (inBraces item).Follows fun tokens as =>
      ∃ taken, Listed .comma Form taken as ∧ tokens = .lbrace :: (taken ++ [.rbrace]) := by
  intro c as e
  constructor
  · intro h
    obtain ⟨_, _, hopen, h⟩ := bind_eq_ok.1 h
    obtain ⟨as, _, has, h⟩ := bind_eq_ok.1 h
    obtain ⟨_, hclose, rfl⟩ := bind_pure_eq_ok.1 h
    obtain ⟨taken, htaken, hc, -⟩ := (list_eq_ok hitem).1 has
    exact ⟨_, ⟨taken, htaken, rfl⟩, (sign_eq_ok.1 hopen).append (hc.append (sign_eq_ok.1 hclose))⟩
  · rintro ⟨_, ⟨taken, htaken, rfl⟩, hopen, hc⟩
    obtain ⟨m, hlist, hclose⟩ := Cursor.takes_append.1 hc
    have has := (@list_eq_ok _ c.advance m .comma (by simp) item Form hitem as).2
      ⟨taken, htaken, hlist, by simp [hclose.1]⟩
    exact bind_eq_ok.2 ⟨(), _, sign_eq_ok.2 ⟨hopen, rfl⟩, bind_eq_ok.2 ⟨as, m, has,
      bind_pure_eq_ok.2 ⟨(), sign_eq_ok.2 hclose, rfl⟩⟩⟩

end

end Reader

end Eqasm
