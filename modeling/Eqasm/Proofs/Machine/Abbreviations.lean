import Eqasm.Proofs.Assembly.Emission
import Eqasm.Proofs.Instruction.Lowering
import Eqasm.Proofs.Machine.Comparisons
import Eqasm.Proofs.Machine.Instructions

/-!
# Abbreviations

Some statements stand for two instructions, and what they mean shows when both are executed. A
comparison with a branch goes to its label exactly if its relation holds between the two registers,
and changes nothing but flags (`branch_of_line`). The addition of a constant loads the constant into
its destination first. So it adds the constant to its source if that is another register, and
otherwise to the constant itself (`sum_of_line`).
-/

namespace Eqasm

/-- The places of two instructions one behind the other. -/
theorem getElem?_of_append {program : Array Instruction} {earlier more : List Instruction}
    {i j : Instruction} (h : program.toList = earlier ++ i :: j :: more) :
    program[earlier.length]? = some i ∧ program[earlier.length + 1]? = some j := by
  rw [← Array.getElem?_toList, ← Array.getElem?_toList, h]
  simp

/-! ## Comparisons with a branch -/

/-- A comparison with a branch. -/
def branchTokens (r : Relation) (rs rt : Nat) (label : String) : List Token :=
  [.keyword (.branch r), .register .general rs, .comma, .register .general rt, .comma, .ident label]

theorem lexes_branch (r : Relation) {rs rt : Nat} {label : String} (hrs : IsIndex rs)
    (hrt : IsIndex rt) (hlabel : IsName label) :
    Lexes s!"b{r.name} r{rs}, r{rt}, {label}".toList (branchTokens r rs rt label) := by
  have hrow := lexes_row (r := .command (.branch r)
      [.register .general rs, .register .general rt, .one (.ident label)])
    (Row.apart_command _ (by simp [Row.apart_register, Row.apart_one]))
    (by simp [Row.command, Row.list, Row.register, Row.one, hrs, hrt, hlabel])
  have hspelling : (Keyword.branch r).spelling = "b" ++ r.name := by cases r <;> rfl
  simpa [Row.command, Row.list, Row.register, Row.one, branchTokens, hspelling,
    RegisterClass.sigil] using hrow

namespace Machine

section

variable {β : Type} [Backend β]

/-- **A comparison and a branch on its relation** go to the label if the relation holds, and
otherwise go on behind the branch. -/
theorem steps_of_branch {m : Machine β} {labels : List String} {r : Relation} {rs rt target : Nat}
    {label : String} {x y : Cell} (hh : m.halted = false)
    (hcmp : m.program[m.pc]? = some ⟨labels, .cmp rs rt⟩)
    (hbr : m.program[m.pc + 1]? = some ⟨[], .br (.relation r) label⟩)
    (hx : m.data.general.read rs = .ok x) (hy : m.data.general.read rt = .ok y)
    (hwidth : x.width = y.width) (htarget : m.labels.find? label = some target) :
    ∃ m' pc, m.step = (m', none) ∧
      m'.step = ({ m with
        data := { m.data with flags := m.data.flags.compare x y }
        cycle := m.cycle + 2
        pc }, none) ∧
      (r.Meaning x y → pc = target) ∧ (¬ r.Meaning x y → pc = m.pc + 2) := by
  have hfirst := step_cmp hh hcmp hx hy
  refine ⟨_, if r.holds x y then target else m.pc + 2, hfirst, ?_, fun hr => ?_, fun hr => ?_⟩
  · rw [step_br (m := { m with data := _, cycle := _, pc := m.pc + 1 }) hh hbr rfl]
    simp only [Flags.get_compare, htarget]
    split <;> rfl
  · rw [if_pos ((Relation.holds_iff hwidth r).2 hr)]
  · rw [if_neg (mt (Relation.holds_iff hwidth r).1 hr)]

omit [Backend β] in
/-- A branch of an accepted program has one target, the instruction that carries its label. -/
theorem exists_target {m₀ m₁ : Machine β} {program : List Instruction}
    (h : upload program m₀ = (m₁, .ok ())) {i : Instruction} (hi : i ∈ program) {label : String}
    (hlabel : i.operation.branchLabel? = some label) :
    ∃ k, m₁.labels.find? label = some k ∧ (∃ j, program[k]? = some j ∧ label ∈ j.labels) ∧
      ∀ n j, program[n]? = some j → label ∈ j.labels → n = k := by
  obtain ⟨labels, hcheck, rfl⟩ := upload_eq_ok.1 h
  have hdescribes := labelled_of_check hcheck
  obtain ⟨k, hk⟩ := Option.isSome_iff_exists.1 (resolved_of_check hcheck i hi label hlabel)
  obtain ⟨j, hj, hmem⟩ := hdescribes.find?_eq_some.1 hk
  exact ⟨k, hk, ⟨j, hj, hmem⟩, fun n j' hn hmem' => hdescribes.eq_of_mem_labels hn hj hmem' hmem⟩

/-- **Comparisons with a branch.** A comparison with a branch may be written as its mnemonic, its
registers and its label, with commas between them. In a text without problems, such a line adds a
comparison and a branch. When a machine with this program comes to the comparison and has both
registers, two steps take it to the one instruction that carries the label if the relation holds
between the registers, and otherwise behind the branch. Besides flags and cycles nothing changes. -/
theorem branch_of_line :
    (∀ r rs rt label, IsIndex rs → IsIndex rt → IsName label →
      Lexes s!"b{r.name} r{rs}, r{rt}, {label}".toList (branchTokens r rs rt label)) ∧
    ∀ source a before line after names r rs rt label, assemble source = .ok a → a.succeeded →
      (Text.lower source.toList).splitOn '\n' = before ++ line :: after →
      Lexes line (declarations names ++ branchTokens r rs rt label) →
      ∃ earlier labels more, Adds before earlier ∧ names ⊆ labels ∧
        a.instructions.toList =
          earlier ++ ⟨labels, .cmp rs rt⟩ :: ⟨[], .br (.relation r) label⟩ :: more ∧
        ∀ (m₀ m₁ m : Machine β) count width, upload a.instructions.toList m₀ = (m₁, .ok ()) →
          m.program = m₁.program → m.labels = m₁.labels → m.halted = false →
          m.pc = earlier.length → m.data.general.Sound count width → rs < count → rt < count →
          ∃ x y target m' pc, m.data.general.read rs = .ok x ∧ m.data.general.read rt = .ok y ∧
            (∃ j, a.instructions[target]? = some j ∧ label ∈ j.labels) ∧
            (∀ n j, a.instructions[n]? = some j → label ∈ j.labels → n = target) ∧
            m.step = (m', none) ∧
            m'.step = ({ m with
              data := { m.data with flags := m.data.flags.compare x y }
              cycle := m.cycle + 2
              pc }, none) ∧
            (r.Meaning x y → pc = target) ∧ (¬ r.Meaning x y → pc = earlier.length + 2) := by
  refine ⟨fun r rs rt label => lexes_branch r, ?_⟩
  intro source a before line after names r rs rt label ha hsucceeded hlines hline
  obtain ⟨earlier, labels, more, hadds, hnames, hadded⟩ :=
    exists_emitted ha hsucceeded hlines hline (.branch r rs rt label)
  have hprogram : a.instructions.toList =
      earlier ++ ⟨labels, .cmp rs rt⟩ :: ⟨[], .br (.relation r) label⟩ :: more := by
    simpa using hadded
  refine ⟨earlier, labels, more, hadds, hnames, hprogram, ?_⟩
  intro m₀ m₁ m count width hupload hm hlabels hh hpc hgeneral hrs hrt
  have hinstructions : m.program = a.instructions := by
    obtain ⟨_, -, rfl⟩ := upload_eq_ok.1 hupload
    simpa using hm
  obtain ⟨hcmp, hbr⟩ := getElem?_of_append hprogram
  rw [← hinstructions, ← hpc] at hcmp hbr
  obtain ⟨x, hx, hxwidth⟩ := hgeneral.exists_read hrs
  obtain ⟨y, hy, hywidth⟩ := hgeneral.exists_read hrt
  obtain ⟨target, hfind, hcarried, hunique⟩ := exists_target hupload
    (i := ⟨[], .br (.relation r) label⟩) (by simp [hprogram]) rfl
  rw [← hlabels] at hfind
  obtain ⟨m', pc, hfirst, hsecond, hholds, hfails⟩ :=
    steps_of_branch hh hcmp hbr hx hy (hxwidth.trans hywidth.symm) hfind
  simp only [Array.getElem?_toList] at hcarried hunique
  exact ⟨x, y, target, m', pc, hx, hy, hcarried, hunique, hfirst, hsecond, hholds, hpc ▸ hfails⟩

end

/-- Of two registers with four bits, the first one holds -3 and the second one 5. -/
theorem branch_of_line_of_negative :
    ∃ (a : Assembly) (m m' m'' : Machine Ideal) (x y : Cell),
      assemble "blt r0, r1, a\nstop\na: stop" = .ok a ∧ m.program = a.instructions ∧
      m.data.general.read 0 = .ok x ∧ m.data.general.read 1 = .ok y ∧ x.bits = 13 ∧ y.bits = 5 ∧
      m.step = (m', none) ∧ m'.step = (m'', none) ∧ m''.pc = 3 := by
  have hlower : Text.lower "blt r0, r1, a\nstop\na: stop".toList = Row.text
      [some (.keyword (.branch .lt)), none, some (.register .general 0), some .comma, none,
        some (.register .general 1), some .comma, none, some (.ident "a"), some .newline,
        some (.keyword .stop), some .newline, some (.ident "a"), some .colon, none,
        some (.keyword .stop)] := by
    decide +kernel
  have hname : IsName "a" := by decide +kernel
  have hline : LineForm [] (declarations [] ++ branchTokens .lt 0 1 "a") []
      (some [.cmp 0 1, .br (.relation .lt) "a"]) :=
    .mk (new_nil _) (.statement (.branch .lt 0 1 "a"))
  have hstop : LineForm [] (declarations [] ++ [.keyword .stop]) [] (some [.stop]) :=
    .mk (new_nil _) (.statement .stop)
  have hlabel : LineForm [] (declarations ["a"] ++ [.keyword .stop]) ["a"] (some [.stop]) :=
    .mk ⟨by simp, by simp⟩ (.statement .stop)
  obtain ⟨a, ha, hsucceeded, hinstructions⟩ := exists_assembled hlower
    (by simp [Row.Apart, isBreak, Token.isSign]) (by simp [hname, IsIndex]) rfl
    (.cons hline (.cons hstop (.cons hlabel (.nil _ _)))) rfl rfl
  obtain ⟨hlexes, hbranch⟩ := branch_of_line (β := Ideal)
  obtain ⟨earlier, -, -, hadds, -, -, hsteps⟩ := hbranch _ a [] _
    ["stop".toList, "a: stop".toList] [] .lt 0 1 "a" ha hsucceeded (by decide +kernel)
    (hlexes .lt 0 1 "a" (by decide) (by decide) hname)
  obtain rfl : earlier = [] := hadds.unique adds_nil
  obtain ⟨m₀, hmake⟩ : ∃ m₀ : Machine Ideal,
      make { generalCount := 2, generalWidth := 4, floatCount := 1, qubits := 1 } ⟨⟩ = .ok m₀ :=
    ⟨_, rfl⟩
  obtain ⟨m₁, hupload, hhalted, hpc⟩ : ∃ m₁, upload a.instructions.toList m₀ = (m₁, .ok ()) ∧
      m₁.halted = false ∧ m₁.pc = 0 := by
    rw [hinstructions]
    cases hmake
    exact ⟨_, rfl, rfl, rfl⟩
  obtain ⟨x, hx⟩ : ∃ x : Cell, x = ⟨4, 13, by decide, by decide, by decide⟩ := ⟨_, rfl⟩
  obtain ⟨y, hy⟩ : ∃ y : Cell, y = ⟨4, 5, by decide, by decide, by decide⟩ := ⟨_, rfl⟩
  have hgeneral : Bank.Sound ⟨"r", y, #[x, y]⟩ 2 4 := by
    subst hx hy
    exact ⟨rfl, rfl, by simp⟩
  let m : Machine Ideal := { m₁ with data := { m₁.data with general := ⟨"r", y, #[x, y]⟩ } }
  obtain ⟨_, _, target, m', pc, hread, hread', -, hunique, hfirst, hsecond, hholds, -⟩ :=
    hsteps m₀ m₁ m 2 4 hupload rfl rfl hhalted hpc hgeneral (by decide) (by decide)
  cases hread
  cases hread'
  have htarget : 3 = target := by
    refine hunique 3 ⟨["a"], .stop⟩ ?_ (by simp)
    rw [← Array.getElem?_toList, hinstructions]
    rfl
  have hless : Relation.lt.Meaning x y := by
    subst hx hy
    exact (by decide : (-3 : Int) < 5)
  have hprogram : m₁.program = a.instructions := by
    obtain ⟨_, -, rfl⟩ := upload_eq_ok.1 hupload
    rfl
  exact ⟨a, m, m', _, x, y, ha, hprogram, rfl, rfl, by rw [hx], by rw [hy], hfirst, hsecond,
    (hholds hless).trans htarget.symm⟩

end Machine

/-! ## Additions of constants -/

/-- The addition of a constant. -/
def additionTokens (rd rs : Nat) (v : Int) : List Token :=
  [.keyword .addi, .register .general rd, .comma, .register .general rs, .comma, .int v]

theorem lexes_addition {rd rs : Nat} {v : Int} (hrd : IsIndex rd) (hrs : IsIndex rs)
    (hv : IsImmediate v) :
    Lexes s!"addi r{rd}, r{rs}, {v}".toList (additionTokens rd rs v) := by
  have hvalid : (Token.int v).Valid := by
    simp only [IsImmediate, Token.Valid] at hv ⊢
    omega
  have hrow := lexes_row (r := .command .addi
      [.register .general rd, .register .general rs, .one (.int v)])
    (Row.apart_command _ (by simp [Row.apart_register, Row.apart_one]))
    (by simp [Row.command, Row.list, Row.register, Row.one, hrd, hrs, hvalid])
  simpa [Row.command, Row.list, Row.register, Row.one, additionTokens, Keyword.spelling,
    RegisterClass.sigil, Token.spelling_int] using hrow

namespace Machine

section

variable {β : Type} [Backend β]

/-- **A constant and its sum with a register.** The destination holds the constant when the source
is read. -/
theorem steps_of_addition {m : Machine β} {labels : List String} {rd rs count : Nat} {imm : Int32}
    {x : Cell} (hh : m.halted = false) (hldi : m.program[m.pc]? = some ⟨labels, .ldi rd imm⟩)
    (hadd : m.program[m.pc + 1]? = some ⟨[], .alu .add rd rs rd⟩)
    (hgeneral : m.data.general.Sound count 32) (hrd : rd < count)
    (hx : m.data.general.read rs = .ok x) :
    ∃ (m' : Machine β) (c : Cell) (b : Bank), m.step = (m', none) ∧
      (c.bits : Int) = ((if rd = rs then imm.toInt else x.bits) + imm.toInt) % 2 ^ 32 ∧
      m.data.general.write rd c = .ok b ∧
      m'.step = ({ m with
        data := { m.data with general := b }
        cycle := m.cycle + 2
        pc := m.pc + 2 }, none) := by
  obtain ⟨d, b, hd, hb, hfirst⟩ := step_ldi hh hldi hgeneral (Nat.le_refl 32) hrd
  have hloaded := Bank.read_of_write hb
  -- the source is read behind the load, which has overwritten it if it is the destination
  obtain ⟨y, hy, hybits⟩ : ∃ y : Cell, b.read rs = .ok y ∧
      (y.bits : Int) % 2 ^ 32 = (if rd = rs then imm.toInt else x.bits) % 2 ^ 32 := by
    by_cases hrs : rd = rs
    · subst hrs
      exact ⟨d, hloaded, by rw [if_pos rfl, hd]; omega⟩
    · exact ⟨x, (Bank.read_of_write_of_ne hb hrs).trans hx, by rw [if_neg hrs]⟩
  obtain ⟨c, b', hc, hb', hsecond⟩ := step_add (m := { m with
      data := { m.data with general := b }, cycle := m.cycle + 1, pc := m.pc + 1 })
    hh hadd (hgeneral.write hb) hrd hy hloaded
  refine ⟨_, c, b', hfirst, ?_, Bank.write_of_write hb c ▸ hb', hsecond⟩
  rw [hc, hd]
  omega

/-- A constant is congruent to the number that it was written as. -/
theorem toInt_ofInt_emod (v : Int) : (Int32.ofInt v).toInt % 2 ^ 32 = v % 2 ^ 32 := by
  rw [Int32.toInt_ofInt]
  exact Int.bmod_emod

/-- **Additions of constants.** The addition of a constant may be written as its mnemonic, its
registers and the constant, with commas between them. In a text without problems, such a line loads
the constant into the destination and adds the source to it. When a machine with this program and
registers of 32 bits comes there and has both registers, two steps take it behind the addition.
Besides cycles nothing changes but the destination. It holds the sum of the source and the constant
if it is another register than the source, or if the source held the constant, and otherwise it does
not: then it holds twice the constant. -/
theorem sum_of_line :
    (∀ rd rs v, IsIndex rd → IsIndex rs → IsImmediate v →
      Lexes s!"addi r{rd}, r{rs}, {v}".toList (additionTokens rd rs v)) ∧
    ∀ source a before line after names rd rs v, assemble source = .ok a → a.succeeded →
      (Text.lower source.toList).splitOn '\n' = before ++ line :: after → IsImmediate v →
      Lexes line (declarations names ++ additionTokens rd rs v) →
      ∃ earlier labels more, Adds before earlier ∧ names ⊆ labels ∧
        a.instructions.toList =
          earlier ++ ⟨labels, .ldi rd (.ofInt v)⟩ :: ⟨[], .alu .add rd rs rd⟩ :: more ∧
        ∀ (m : Machine β) count x, m.program = a.instructions → m.halted = false →
          m.pc = earlier.length → m.data.general.Sound count 32 → rd < count →
          m.data.general.read rs = .ok x →
          ∃ m' c, m.step = (m', none) ∧
            m'.step = ({ m with
              data := { m.data with general :=
                { m.data.general with cells := m.data.general.cells.setIfInBounds rd c } }
              cycle := m.cycle + 2
              pc := earlier.length + 2 }, none) ∧
            c.width = 32 ∧ (c.bits : Int) = ((if rd = rs then v else x.bits) + v) % 2 ^ 32 ∧
            ((c.bits : Int) = (x.bits + v) % 2 ^ 32 ↔ rd ≠ rs ∨ (x.bits : Int) = v % 2 ^ 32) := by
  refine ⟨fun rd rs v => lexes_addition, ?_⟩
  intro source a before line after names rd rs v ha hsucceeded hlines hv hline
  obtain ⟨earlier, labels, more, hadds, hnames, hadded⟩ :=
    exists_emitted ha hsucceeded hlines hline (.addi rd rs hv)
  have hprogram : a.instructions.toList =
      earlier ++ ⟨labels, .ldi rd (.ofInt v)⟩ :: ⟨[], .alu .add rd rs rd⟩ :: more := by
    simpa using hadded
  refine ⟨earlier, labels, more, hadds, hnames, hprogram, ?_⟩
  intro m count x hm hh hpc hgeneral hrd hx
  obtain ⟨hldi, hadd⟩ := getElem?_of_append hprogram
  rw [← hm, ← hpc] at hldi hadd
  obtain ⟨m', c, b, hfirst, hc, hb, hsecond⟩ :=
    steps_of_addition hh hldi hadd hgeneral hrd hx
  obtain ⟨-, hwidth, rfl⟩ := Bank.write_eq_ok.1 hb
  have hcongr := toInt_ofInt_emod v
  have hbits : (c.bits : Int) = ((if rd = rs then v else x.bits) + v) % 2 ^ 32 := by
    rw [hc]
    split <;> omega
  have hxbits : x.bits < 2 ^ 32 := Bank.bits_lt_of_width (hgeneral.width_of_read hx)
  refine ⟨m', c, hfirst, hpc ▸ hsecond, hwidth.trans hgeneral.width_eq, hbits, ?_⟩
  rw [hbits]
  split
  · rename_i hrs
    simp only [hrs, ne_eq, not_true_eq_false, false_or]
    omega
  · rename_i hrs
    simp [hrs]

end

/-- The constant -5 is added to a register that holds 3. -/
theorem sum_of_line_of_negative :
    ∃ (a : Assembly) (m m' m'' : Machine Ideal) (x c : Cell),
      assemble "addi r1, r2, -5\nstop" = .ok a ∧ m.program = a.instructions ∧
      m.data.general.read 2 = .ok x ∧ x.bits = 3 ∧ m.step = (m', none) ∧ m'.step = (m'', none) ∧
      m''.pc = 2 ∧ m''.data.general.read 1 = .ok c ∧ (c.bits : Int) = (3 + -5) % 2 ^ 32 := by
  have hlower : Text.lower "addi r1, r2, -5\nstop".toList = Row.text [some (.keyword .addi), none,
      some (.register .general 1), some .comma, none, some (.register .general 2), some .comma,
      none, some (.int (-5)), some .newline, some (.keyword .stop)] := by
    decide +kernel
  have hconstant : IsImmediate (-5) := ⟨by decide, by decide⟩
  have hline : LineForm [] (declarations [] ++ additionTokens 1 2 (-5)) []
      (some [.ldi 1 (-5), .alu .add 1 2 1]) :=
    .mk (new_nil _) (.statement (.addi 1 2 hconstant))
  have hstop : LineForm [] (declarations [] ++ [.keyword .stop]) [] (some [.stop]) :=
    .mk (new_nil _) (.statement .stop)
  obtain ⟨a, ha, hsucceeded, hinstructions⟩ := exists_assembled hlower
    (by simp [Row.Apart, isBreak, Token.isSign]) (by simp [Token.Valid, IsIndex]) rfl
    (.cons hline (.cons hstop (.nil _ _))) rfl rfl
  obtain ⟨hlexes, hsum⟩ := sum_of_line (β := Ideal)
  obtain ⟨earlier, -, -, hadds, -, -, hsteps⟩ := hsum _ a [] _ ["stop".toList] [] 1 2 (-5)
    ha hsucceeded (by decide +kernel) hconstant (hlexes 1 2 (-5) (by decide) (by decide) hconstant)
  obtain rfl : earlier = [] := hadds.unique adds_nil
  obtain ⟨m₀, hmake, hsound, -⟩ : ∃ m₀ : Machine Ideal,
      make { generalCount := 3, floatCount := 1, qubits := 1 } ⟨⟩ = .ok m₀ ∧
      m₀.Sound { generalCount := 3, floatCount := 1, qubits := 1 } ∧ m₀.data.backend = ⟨⟩ :=
    exists_make (by decide) (by decide) (⟨⟩ : Ideal)
  have hdata := (hsound.acts (empty_of_make hmake).2
    [.upload [⟨[], .ldi 1 (-5)⟩, ⟨[], .alu .add 1 2 1⟩, ⟨[], .stop⟩], .write (.signed 2 3)]).data
  generalize hm : m₀.acts _ = m at hdata
  have hprogram : m.program = a.instructions := by
    refine Array.toList_inj.1 (Eq.trans ?_ hinstructions.symm)
    cases hmake
    cases hm
    decide +kernel
  have hstart : m.halted = false ∧ m.pc = 0 := by
    cases hmake
    cases hm
    decide +kernel
  obtain ⟨x, hx, hbits⟩ : ∃ x, m.data.general.read 2 = .ok x ∧ x.bits = 3 := by
    cases hmake
    cases hm
    exact ⟨⟨32, 3, by decide, by decide, by decide⟩, by decide +kernel, rfl⟩
  obtain ⟨m', c, hfirst, hsecond, hwidth, hsum, -⟩ :=
    hsteps m 3 x hprogram hstart.1 hstart.2 hdata.general (by decide) hx
  have hlt : 1 < m.data.general.size :=
    Nat.lt_of_lt_of_eq (by decide : 1 < 3) hdata.general.size_eq.symm
  have hread := Bank.read_of_write (Bank.write_eq_ok.2
    ⟨hlt, hwidth.trans hdata.general.width_eq.symm, rfl⟩)
  refine ⟨a, m, m', _, x, c, ha, hprogram, hx, hbits, hfirst, hsecond, rfl, hread, ?_⟩
  rw [hsum, if_neg (by decide), hbits]
  rfl

/-- The constant is loaded into the source, and then added to itself. -/
theorem sum_not_in_destination :
    ∃ (a : Assembly) (m m' m'' : Machine Ideal) (x y : Cell),
      assemble "ldi r1, 10\naddi r1, r1, 5\nstop" = .ok a ∧ a.succeeded ∧
      a.instructions.toList =
        [⟨[], .ldi 1 10⟩, ⟨[], .ldi 1 5⟩, ⟨[], .alu .add 1 1 1⟩, ⟨[], .stop⟩] ∧
      m.program = a.instructions ∧ m.halted = false ∧ m.pc = 1 ∧
      m.data.general.read 1 = .ok x ∧ x.width = 32 ∧ x.bits = 10 ∧
      m.step = (m', none) ∧ m'.step = (m'', none) ∧ m''.pc = 3 ∧
      m''.data.general.read 1 = .ok y ∧ y.bits = 10 ∧ (y.bits : Int) ≠ (x.bits + 5) % 2 ^ 32 := by
  have hlower : Text.lower "ldi r1, 10\naddi r1, r1, 5\nstop".toList = Row.text
      [some (.keyword .ldi), none, some (.register .general 1), some .comma, none, some (.int 10),
        some .newline, some (.keyword .addi), none, some (.register .general 1), some .comma, none,
        some (.register .general 1), some .comma, none, some (.int 5), some .newline,
        some (.keyword .stop)] := by
    decide +kernel
  have hfirst : LineForm [] (declarations [] ++ [.keyword .ldi, .register .general 1, .comma,
      .int 10]) [] (some [.ldi 1 10]) :=
    .mk (new_nil _) (.statement (.ldi 1 ⟨by decide, by decide⟩))
  have hsecond : LineForm [] (declarations [] ++ additionTokens 1 1 5) []
      (some [.ldi 1 5, .alu .add 1 1 1]) :=
    .mk (new_nil _) (.statement (.addi 1 1 ⟨by decide, by decide⟩))
  have hthird : LineForm [] (declarations [] ++ [.keyword .stop]) [] (some [.stop]) :=
    .mk (new_nil _) (.statement .stop)
  obtain ⟨a, ha, hsucceeded, hinstructions⟩ := exists_assembled hlower
    (by simp [Row.Apart, isBreak, Token.isSign]) (by simp [Token.Valid, IsIndex]) rfl
    (.cons hfirst (.cons hsecond (.cons hthird (.nil _ _)))) rfl rfl
  obtain ⟨m₀, hmake⟩ : ∃ m₀ : Machine Ideal,
      make { generalCount := 2, floatCount := 1, qubits := 1 } ⟨⟩ = .ok m₀ := ⟨_, rfl⟩
  obtain ⟨m, hm⟩ : ∃ m, m₀.acts [.upload [⟨[], .ldi 1 10⟩, ⟨[], .ldi 1 5⟩,
      ⟨[], .alu .add 1 1 1⟩, ⟨[], .stop⟩], .step] = m := ⟨_, rfl⟩
  have hprogram : m.program = a.instructions := by
    refine Array.toList_inj.1 (Eq.trans ?_ hinstructions.symm)
    cases hmake
    cases hm
    decide +kernel
  have hrun : m.halted = false ∧ m.pc = 1 ∧ m.step.2 = none ∧ m.step.1.step.2 = none ∧
      m.step.1.step.1.pc = 3 := by
    cases hmake
    cases hm
    decide +kernel
  obtain ⟨hhalted, hpc, hnone, hnone', hbehind⟩ := hrun
  have hcells : m.data.general.read 1 = .ok ⟨32, 10, by decide, by decide, by decide⟩ ∧
      m.step.1.step.1.data.general.read 1 = .ok ⟨32, 10, by decide, by decide, by decide⟩ := by
    cases hmake
    cases hm
    decide +kernel
  exact ⟨a, m, m.step.1, m.step.1.step.1, _, _, ha, hsucceeded, hinstructions, hprogram, hhalted,
    hpc, hcells.1, rfl, rfl, Prod.ext rfl hnone, Prod.ext rfl hnone', hbehind, hcells.2, rfl,
    by decide⟩

end Machine

end Eqasm
