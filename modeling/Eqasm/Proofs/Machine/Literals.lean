import Eqasm.Proofs.Assembly.Problems
import Eqasm.Proofs.Instruction.Lowering
import Eqasm.Proofs.Machine.Abbreviations
import Eqasm.Proofs.Token.Literal

/-!
# From literals to registers

The load of a constant may be written with any literal of the constant (`loadLine`). A constant that
is a pattern of 32 bits arrives in its register, and any other one is refused
(`Machine.register_of_literal`).
-/

namespace Eqasm

/-- The load of a constant. -/
def loadTokens (rd : Nat) (n : Int) : List Token :=
  [.keyword .ldi, .register .general rd, .comma, .int n]

/-- The load of a constant that is written as a literal. -/
def loadLine (rd : Nat) (literal : List Char) : List Char :=
  s!"ldi r{rd}, ".toList ++ literal

theorem lexes_load {rd : Nat} {n : Int} {literal lowered : List Char} (hrd : IsIndex rd)
    (h : Lowers literal lowered) (hn : Spells lowered n) (hv : (Token.int n).Valid) :
    Lexes (Text.lower (loadLine rd literal)) (loadTokens rd n) := by
  have hnil : ∀ c ∈ ([] : List Char), c = ' ' := by simp
  have hblank : ∀ c ∈ [' '], c = ' ' := by simp
  have hend : Breaks [] := by simp [Breaks]
  obtain ⟨x, text, hx, rfl, -, ht⟩ := lexeme?_of_spells hn hend
  rw [intToken?_of_valid hv] at ht
  have hlower : Lowers (loadLine rd literal)
      ([] ++ ((Token.keyword .ldi).spelling ++ ([' '] ++ ((Token.register .general rd).spelling ++
        ([] ++ (Token.comma.spelling ++ ([' '] ++ (x.chars ++ [])))))))) := by
    simp [loadLine, Token.spelling, Keyword.spelling, RegisterClass.sigil, h]
  -- the line is put together from its end
  have hliteral := lexes_nil.cons (.blank (.inl rfl) .nil) hx ht
  rw [hlower.lower_eq]
  have hcomma := hliteral.spelling hnil (t := .comma) trivial (by simp [Token.isSign])
  have hregister := hcomma.spelling hblank (t := .register .general rd) hrd
    (fun _ => Row.breaks_cons (by decide) _)
  exact hregister.spelling hnil (t := .keyword .ldi) trivial
    (fun _ => Row.breaks_cons (by decide) _)

/-- A constant that is no pattern of 32 bits is refused. -/
theorem readBody_load {n : Int} (hn : ¬ IsImmediate n) {rd k : Nat} {line : List LineToken}
    (hline : line.map (·.token) = loadTokens rd n) (hk : ∀ t ∈ line, t.line = k) (e : Cursor) :
    ∃ c, readBody (e.prepend line) = (c, .error ⟨k, .outOfRange .immediate n⟩) := by
  obtain ⟨ldi, behind, rfl, hldi, hbehind⟩ := List.map_eq_cons_iff.1 hline
  obtain ⟨register, behind, rfl, hregister, hbehind⟩ := List.map_eq_cons_iff.1 hbehind
  obtain ⟨comma, behind, rfl, hcomma, hbehind⟩ := List.map_eq_cons_iff.1 hbehind
  obtain ⟨int, behind, rfl, hint, hbehind⟩ := List.map_eq_cons_iff.1 hbehind
  obtain rfl := List.map_eq_nil_iff.1 hbehind
  obtain rfl : int.line = k := hk int (by simp)
  -- the problem is passed on from the number to the line
  have hnumber : (Reader.number .immediate).run (e.prepend [int]) =
      (e, .error ⟨int.line, .outOfRange .immediate n⟩) :=
    Reader.number_of_outOfRange ⟨congrArg some hint, rfl⟩ hn
  have himmediate : Reader.immediate.run (e.prepend [int]) =
      (e, .error ⟨int.line, .outOfRange .immediate n⟩) :=
    Work.bind_of_error hnumber
  have hsign : Reader.comma.run (e.prepend [comma, int]) = (e.prepend [int], .ok ()) :=
    Reader.sign_eq_ok.2 ⟨congrArg some hcomma, rfl⟩
  have hsecond : (Reader.andThen Reader.immediate).run (e.prepend [comma, int]) =
      (e, .error ⟨int.line, .outOfRange .immediate n⟩) :=
    (Work.bind_of_ok hsign).trans himmediate
  have hfirst : (Reader.register .general).run (e.prepend [register, comma, int]) =
      (e.prepend [comma, int], .ok rd) :=
    Reader.register_eq_ok.2 ⟨congrArg some hregister, rfl⟩
  have hoperands : (Reader.operands .ldi).run (e.prepend [register, comma, int]) =
      (e, .error ⟨int.line, .outOfRange .immediate n⟩) :=
    (Work.bind_of_ok hfirst).trans (Work.bind_of_error hsecond)
  have hkeyword : (e.prepend [ldi, register, comma, int]).next? = some (.keyword .ldi) :=
    congrArg some hldi
  have hread : Statement.read.run (e.prepend [ldi, register, comma, int]) =
      (e, .error ⟨int.line, .outOfRange .immediate n⟩) :=
    (Statement.read_of_keyword rfl hkeyword).trans hoperands
  refine ⟨e, ?_⟩
  rw [readBody_of_not_atLineEnd (by simp [Cursor.atLineEnd, hldi]), Work.bind_of_error hread]

namespace Machine

section

variable {β : Type} [Backend β]

/-- A constant is left in its register as a number below 2^32. -/
theorem exists_loaded {m : Machine β} {labels : List String} {rd count : Nat} {n : Int}
    (hh : m.halted = false) (hi : m.program[m.pc]? = some ⟨labels, .ldi rd (.ofInt n)⟩)
    (hgeneral : m.data.general.Sound count 32) (hrd : rd < count) :
    ∃ m' c, m.step = (m', none) ∧ m'.data.general.read rd = .ok c ∧
      (c.bits : Int) = n % 2 ^ 32 := by
  obtain ⟨c, b, hbits, hb, hstep⟩ := step_ldi hh hi hgeneral (Nat.le_refl 32) hrd
  exact ⟨_, c, hstep, Bank.read_of_write hb, hbits.trans (toInt_ofInt_emod n)⟩

/-- **Constants from literals.** Where a lexer comes to a literal, a numeral in any letter case with
a proper end, the next item is its number. It stands at the place of the literal, and the lexer goes
on behind the literal. If 64 bits cannot hold the number, the item is an error at the same place. A
text that only loads a constant of 64 bits, written as a literal, is assembled. In every text that
is assembled, there is nothing to report for the line of such a load if the constant is a pattern of
32 bits, with or without a sign. Then the line adds the load, and when a machine with this program
and registers of 32 bits comes there, one step leaves the register with the constant modulo
`2 ^ 32`. For any other constant there is one report, which says that it is out of range. -/
theorem register_of_literal :
    (∀ literal lowered n before behind, Lowers literal lowered → Spells lowered n →
      Delimits behind →
      ∃ u v, Text.lower (before ++ (literal ++ behind)) = u ++ (lowered ++ v) ∧
        (∀ w, Lowers before w → u = w) ∧
        ∀ l : Lexer, l.Faces u (lowered ++ v) →
          if -2 ^ 63 ≤ n ∧ n < 2 ^ 63 then
            ∃ l', l.next = (some (.ok ⟨.int n, lineBehind u, columnBehind u⟩), l') ∧
              l'.At (u ++ lowered) ∧ l'.finished = false
          else ∃ text l', text.toList <:+ lowered ∧ l.next =
            (some (.error (.integerOverflow text (lineBehind u) (columnBehind u))), l')) ∧
    ∀ rd literal lowered n, IsIndex rd → Lowers literal lowered → Spells lowered n →
      -2 ^ 63 ≤ n → n < 2 ^ 63 →
      (∃ a, assemble (.ofList (loadLine rd literal)) = .ok a) ∧
      ∀ source a before after, assemble source = .ok a →
        source.toList.splitOn '\n' = before ++ loadLine rd literal :: after →
        a.diagnostics.toList.filter (·.line = before.length + 1) =
          (if -2 ^ 31 ≤ n ∧ n < 2 ^ 32 then []
            else [⟨before.length + 1, .outOfRange .immediate n⟩]) ∧
        (-2 ^ 31 ≤ n → n < 2 ^ 32 →
          ∃ earlier labels more, Adds (before.map Text.lower) earlier ∧
            a.instructions.toList = earlier ++ ⟨labels, .ldi rd (.ofInt n)⟩ :: more ∧
            ∀ (m : Machine β) count, m.program = a.instructions → m.halted = false →
              m.pc = earlier.length → m.data.general.Sound count 32 → rd < count →
              ∃ m' c, m.step = (m', none) ∧ m'.data.general.read rd = .ok c ∧
                (c.bits : Int) = n % 2 ^ 32) := by
  constructor
  · intro literal lowered n before behind hliteral hn hb
    obtain ⟨u, v, hlower, hu, hv⟩ := exists_lowered_literal hliteral hb before
    exact ⟨u, v, hlower, hu, fun l hl => hl.next_of_spells hn hv⟩
  · intro rd literal lowered n hrd hliteral hn hleast hgreatest
    have hvalid : (Token.int n).Valid := by
      simp only [Token.Valid]
      omega
    have hlexes := lexes_load hrd hliteral hn hvalid
    have htext : Lexes (Text.lower (String.ofList (loadLine rd literal)).toList)
        (loadTokens rd n) := by
      rwa [String.toList_ofList]
    obtain ⟨ts, hts, -⟩ := htext.exists_tokenize
    refine ⟨⟨_, assemble_eq_ok.2 ⟨ts, hts, rfl⟩⟩, ?_⟩
    intro source a before after ha hlines
    have hlower : (Text.lower source.toList).splitOn '\n' =
        before.map Text.lower ++ Text.lower (loadLine rd literal) :: after.map Text.lower := by
      rw [Text.splitOn_lower, hlines, List.map_append, List.map_cons]
    have hrange : IsImmediate n ↔ -2 ^ 31 ≤ n ∧ n < 2 ^ 32 := by
      simp only [IsImmediate]
      omega
    by_cases himmediate : IsImmediate n
    · obtain ⟨⟨earlier, labels, more, hadds, hadded⟩, hnone⟩ :=
        exists_added ha hlower hlexes (.ldi rd himmediate)
      have hprogram : a.instructions.toList =
          earlier ++ ⟨labels, .ldi rd (.ofInt n)⟩ :: more := by
        simpa using hadded
      rw [List.length_map] at hnone
      rw [hnone, if_pos (hrange.1 himmediate)]
      refine ⟨rfl, fun _ _ => ⟨earlier, labels, more, hadds, hprogram, ?_⟩⟩
      intro m count hm hh hpc hgeneral hcount
      have hat : m.program[m.pc]? = some ⟨labels, .ldi rd (.ofInt n)⟩ := by
        rw [hm, hpc, ← Array.getElem?_toList, hprogram]
        simp
      exact exists_loaded hh hat hgeneral hcount
    · have hreported := reported_of_line ha hlower hlexes (by simp [loadTokens])
        fun line e hline hk _ => readBody_load himmediate hline hk e
      rw [List.length_map] at hreported
      rw [hreported, if_neg fun h => himmediate (hrange.2 h)]
      exact ⟨rfl, fun hle hlt => absurd (hrange.2 ⟨hle, hlt⟩) himmediate⟩

end

/-- A constant above the greatest signed one, in hexadecimal digits of both cases. -/
theorem register_of_literal_of_hexadecimal :
    ∃ (l l' : Lexer) (a : Assembly) (m m' : Machine Ideal) (c : Cell),
      (Lexer.ofString "ldi r1, 0XffFFfffe\nstop").after 3 = l ∧
      l.next = (some (.ok ⟨.int 4294967294, 1, 9⟩), l') ∧
      assemble "ldi r1, 0XffFFfffe" = .ok a ∧
      a.diagnostics.toList.filter (·.line = 1) = [] ∧ m.program = a.instructions ∧
      m.step = (m', none) ∧ m'.data.general.read 1 = .ok c ∧ (c.bits : Int) = 4294967294 := by
  have hliteral : Lowers "0XffFFfffe".toList "0xfffffffe".toList := by
    simp
  have hspells : Spells "0xfffffffe".toList 4294967294 := .hexadecimal 0 4294967294
  obtain ⟨hlexer, hload⟩ := register_of_literal (β := Ideal)
  obtain ⟨u, v, hlower, hu, hnext⟩ := hlexer _ _ _ "ldi r1, ".toList "\nstop".toList hliteral
    hspells (delimits_cons (by decide) _)
  obtain rfl := hu "ldi r1, ".toList (by simp)
  obtain rfl : v = "\nstop".toList := by
    have htext : Text.lower ("ldi r1, ".toList ++ ("0XffFFfffe".toList ++ "\nstop".toList)) =
        "ldi r1, ".toList ++ ("0xfffffffe".toList ++ "\nstop".toList) := by
      decide +kernel
    exact List.append_cancel_left (List.append_cancel_left (hlower.symm.trans htext))
  have hfaces : ((Lexer.ofString "ldi r1, 0XffFFfffe\nstop").after 3).Faces "ldi r1, ".toList
      ("0xfffffffe".toList ++ "\nstop".toList) := by
    refine ⟨by decide +kernel, "ldi r1,".toList, [' '], by decide, ⟨?_, ?_, ?_, ?_⟩, ?_, ?_⟩
    · decide +kernel
    · decide +kernel
    · decide +kernel
    · decide +kernel
    · decide +kernel
    · exact .blank (.inl rfl) .nil
  obtain ⟨l', hl', -⟩ := hnext _ hfaces
  have hplace : lineBehind "ldi r1, ".toList = 1 ∧ columnBehind "ldi r1, ".toList = 9 := by
    decide +kernel
  rw [hplace.1, hplace.2] at hl'
  have hline : LineForm [] (declarations [] ++ loadTokens 1 4294967294) []
      (some [.ldi 1 (.ofInt 4294967294)]) :=
    .mk (new_nil _) (.statement (.ldi 1 ⟨by decide, by decide⟩))
  have hlexes := lexes_load (by decide : IsIndex 1) hliteral hspells ⟨by decide, by decide⟩
  obtain ⟨a, ha, -, hinstructions⟩ := @exists_assembled_of_lexes "ldi r1, 0XffFFfffe" _ _ hlexes
    (.cons hline (.nil _ _)) rfl rfl
  obtain ⟨-, hsource⟩ := hload 1 _ _ 4294967294 (by decide) hliteral hspells (by decide) (by decide)
  obtain ⟨hnone, hregister⟩ := hsource _ a [] [] ha (by decide +kernel)
  obtain ⟨earlier, labels, more, hadds, -, hstep⟩ := hregister (by decide) (by decide)
  obtain rfl : earlier = [] := hadds.unique adds_nil
  obtain ⟨m₀, hmake, hsound, -⟩ := @exists_make Ideal
    { generalCount := 2, floatCount := 1, qubits := 1 } (by decide) (by decide) ⟨⟩
  have hdata := (hsound.acts (empty_of_make hmake).2
    [.upload [⟨[], .ldi 1 (.ofInt 4294967294)⟩]]).data
  generalize hm : m₀.acts _ = m at hdata
  have hprogram : m.program = a.instructions := by
    refine Array.toList_inj.1 (Eq.trans ?_ hinstructions.symm)
    cases hmake
    cases hm
    decide +kernel
  have hstart : m.halted = false ∧ m.pc = 0 := by
    cases hmake
    cases hm
    decide +kernel
  obtain ⟨m', c, hstep', hc, hbits⟩ :=
    hstep m 2 hprogram hstart.1 hstart.2 hdata.general (by decide)
  exact ⟨_, l', a, m, m', c, rfl, hl', ha, hnone, hprogram, hstep', hc, hbits⟩

end Machine

end Eqasm
