import Eqasm.Diagnostic
import Eqasm.Work

/-!
# Readers

A cursor is a place in the tokens of a text. A reader takes tokens from there on and gives what they
mean, or stops where they do not fit: the cursor stays at the place that the reader has come to, and
the problem is noted with the line of this place.

Readers keep to their line (`KeepsToLine`). What they do is decided by the tokens up to the next
line end, and they neither take this line end nor anything behind it. Each reader carries the proof:
a reader of one token takes no line end, and readers in a row go on with what the first of them has
left of the line.
-/

namespace Eqasm

/-- A place in the tokens of a text. -/
structure Cursor where
  /-- The tokens that are left. -/
  left : List LineToken
  /-- The line of the last token of the text, or 1 if the text has none. -/
  lastLine : Nat
  deriving DecidableEq, Repr

namespace Cursor

/-- The start of a text. -/
def start (tokens : List LineToken) : Cursor :=
  ⟨tokens, (tokens.getLast?.map (·.line)).getD 1⟩

/-- The next token. -/
def next? (c : Cursor) : Option Token :=
  c.left.head?.map (·.token)

/-- The line of the next token, or of the last one if none is left. -/
def line (c : Cursor) : Nat :=
  (c.left.head?.map (·.line)).getD c.lastLine

/-- The place behind the next token. -/
def advance (c : Cursor) : Cursor :=
  { c with left := c.left.tail }

/-- Whether nothing is left on the line. -/
def atLineEnd (c : Cursor) : Bool :=
  c.next?.all (· = .newline)

/-- The problem that the grammar asks for something else than the next token. -/
def unexpected (c : Cursor) (wanted : Expectation) : Diagnostic :=
  ⟨c.line, .unexpected wanted c.next?⟩

/-- The place in front of some more tokens. -/
def prepend (c : Cursor) (tokens : List LineToken) : Cursor :=
  { c with left := tokens ++ c.left }

/-- Two places with the same token next, on lines of the same number. -/
structure Alike (c d : Cursor) : Prop where
  next?_eq : c.next? = d.next?
  line_eq : c.line = d.line

theorem Alike.refl (c : Cursor) : c.Alike c :=
  ⟨rfl, rfl⟩

@[simp] theorem prepend_nil (c : Cursor) : c.prepend [] = c := rfl

@[simp] theorem next?_prepend (c : Cursor) (t : LineToken) (ts : List LineToken) :
    (c.prepend (t :: ts)).next? = some t.token := rfl

@[simp] theorem line_prepend (c : Cursor) (t : LineToken) (ts : List LineToken) :
    (c.prepend (t :: ts)).line = t.line := rfl

@[simp] theorem advance_prepend (c : Cursor) (t : LineToken) (ts : List LineToken) :
    (c.prepend (t :: ts)).advance = c.prepend ts := rfl

/-- The line of a place in a line has the number of a token or of the end. -/
theorem line_prepend_mem (c : Cursor) (ts : List LineToken) :
    (c.prepend ts).line = c.line ∨ ∃ t ∈ ts, (c.prepend ts).line = t.line := by
  cases ts with
  | nil => exact .inl rfl
  | cons t ts => exact .inr ⟨t, List.mem_cons_self, rfl⟩

theorem Alike.line_prepend {c d : Cursor} (h : c.Alike d) (ts : List LineToken) :
    (c.prepend ts).line = (d.prepend ts).line := by
  cases ts with
  | nil => exact h.line_eq
  | cons => rfl

theorem length_advance {c : Cursor} (h : c.next? ≠ none) :
    c.advance.left.length < c.left.length := by
  obtain ⟨left, lastLine⟩ := c
  cases left with
  | nil => exact absurd rfl h
  | cons t left => exact Nat.lt_succ_self _

theorem atLineEnd_iff {c : Cursor} : c.atLineEnd ↔ c.next? = none ∨ c.next? = some .newline := by
  rw [atLineEnd]
  cases c.next? <;> simp

/-- Where a line ends, no token but a line end is next. -/
theorem bind_next? {α : Type} {c : Cursor} {meaning : Token → Option α} (hc : c.atLineEnd)
    (h : meaning .newline = none) : c.next?.bind meaning = none := by
  rcases atLineEnd_iff.1 hc with e | e <;> simp [e, h]

end Cursor

/-! ## Keeping to a line -/

/-- Tokens without a line end. -/
def OnOneLine (ts : List LineToken) : Prop :=
  ∀ t ∈ ts, t.token ≠ .newline

theorem onOneLine_iff {ts : List LineToken} : OnOneLine ts ↔ .newline ∉ ts.map (·.token) := by
  simp [OnOneLine]

theorem OnOneLine.of_suffix {xs ys : List LineToken} (h : OnOneLine ys) (hs : xs <:+ ys) :
    OnOneLine xs :=
  fun t ht => h t (hs.subset ht)

section

variable {α β : Type} {line left : List LineToken} {e : Cursor}

/-- Work on a line up to the place `e` where it ends: whatever is behind this place, the work leaves
the tokens `left` of the line and ends with `r`. A problem is one of a token of the line or of its
end. -/
structure Leaves (w : Work Cursor Diagnostic α) (line : List LineToken) (e : Cursor)
    (left : List LineToken) (r : Except Diagnostic α) : Prop where
  suffix : left <:+ line
  number : ∀ d, r = .error d → d.line = e.line ∨ ∃ t ∈ line, d.line = t.line
  run : ∀ e' : Cursor, e'.Alike e → w (e'.prepend line) = (e'.prepend left, r)

/-- What the work does on a line is decided by the line. -/
def KeepsToLine (w : Work Cursor Diagnostic α) : Prop :=
  ∀ line (e : Cursor), OnOneLine line → e.atLineEnd → ∃ left r, Leaves w line e left r

theorem leaves_ok {w : Work Cursor Diagnostic α} {a : α} (hs : left <:+ line)
    (hw : ∀ e' : Cursor, e'.Alike e → w (e'.prepend line) = (e'.prepend left, .ok a)) :
    Leaves w line e left (.ok a) :=
  ⟨hs, fun _ h => (nomatch h), hw⟩

/-- The second of two pieces of work goes on with what the first one leaves of the line. -/
theorem Leaves.bind {w : Work Cursor Diagnostic α} {f : α → Work Cursor Diagnostic β} {a : α}
    {rest : List LineToken} {r : Except Diagnostic β} (hw : Leaves w line e left (.ok a))
    (hf : Leaves (f a) left e rest r) : Leaves (w >>= f) line e rest r where
  suffix := hf.suffix.trans hw.suffix
  number d hd := (hf.number d hd).imp_right fun ⟨t, ht, h⟩ => ⟨t, hw.suffix.subset ht, h⟩
  run e' he := (Work.bind_of_ok (hw.run e' he)).trans (hf.run e' he)

theorem Leaves.bind_error {w : Work Cursor Diagnostic α} {f : α → Work Cursor Diagnostic β}
    {d : Diagnostic} (hw : Leaves w line e left (.error d)) :
    Leaves (w >>= f) line e left (.error d) where
  suffix := hw.suffix
  number c hc := hw.number c (by cases hc; rfl)
  run e' he := Work.bind_of_error (hw.run e' he)

theorem leaves_pure (a : α) (line : List LineToken) (e : Cursor) :
    Leaves (pure a) line e line (.ok a) :=
  leaves_ok List.suffix_rfl fun _ _ => rfl

theorem keepsToLine_pure (a : α) : KeepsToLine (pure a) :=
  fun line e _ _ => ⟨line, .ok a, leaves_pure a line e⟩

theorem KeepsToLine.bind {w : Work Cursor Diagnostic α} {f : α → Work Cursor Diagnostic β}
    (hw : KeepsToLine w) (hf : ∀ a, KeepsToLine (f a)) : KeepsToLine (w >>= f) := by
  intro line e hline he
  obtain ⟨left, d | a, hleft⟩ := hw line e hline he
  · exact ⟨left, .error d, hleft.bind_error⟩
  · obtain ⟨rest, r, hrest⟩ := hf a left e (hline.of_suffix hleft.suffix) he
    exact ⟨rest, r, hleft.bind hrest⟩

end

/-- Every place is in front of some tokens of a line, and behind them the line ends. -/
theorem Cursor.exists_line (c : Cursor) :
    ∃ (line : List LineToken) (e : Cursor), OnOneLine line ∧ e.atLineEnd ∧ c = e.prepend line := by
  obtain ⟨left, lastLine⟩ := c
  induction left with
  | nil => exact ⟨[], ⟨[], lastLine⟩, nofun, rfl, rfl⟩
  | cons t left ih =>
    by_cases ht : t.token = .newline
    · exact ⟨[], ⟨t :: left, lastLine⟩, nofun, by simp [atLineEnd, next?, ht], rfl⟩
    · obtain ⟨line, e, hline, he, h⟩ := ih
      refine ⟨t :: line, e, List.forall_mem_cons.2 ⟨ht, hline⟩, he, ?_⟩
      cases h
      rfl

/-! ## Readers -/

/-- Work that takes tokens and gives what they mean, and keeps to their line. -/
structure Reader (α : Type) where
  run : Work Cursor Diagnostic α
  keeps : KeepsToLine run

namespace Reader

variable {α β : Type}

instance : Monad Reader where
  pure a := ⟨pure a, keepsToLine_pure a⟩
  bind p f := ⟨p.run >>= fun a => (f a).run, p.keeps.bind fun a => (f a).keeps⟩

@[simp] theorem run_pure (a : α) : (pure a : Reader α).run = pure a := rfl

@[simp] theorem run_bind (p : Reader α) (f : α → Reader β) :
    (p >>= f).run = p.run >>= fun a => (f a).run := rfl

/-- A reader goes on in the tokens that are left. -/
theorem suffix_run (p : Reader α) (c : Cursor) : (p.run c).1.left <:+ c.left := by
  obtain ⟨line, e, hline, he, rfl⟩ := c.exists_line
  obtain ⟨left, r, hleft⟩ := p.keeps line e hline he
  obtain ⟨taken, htaken⟩ := hleft.suffix
  rw [hleft.run e (.refl e)]
  exact ⟨taken, by simp [Cursor.prepend, ← htaken]⟩

/-! ## Single tokens -/

/-- Takes the next token if it has a meaning. No line end has one. -/
def accept (meaning : Token → Option α) (h : meaning .newline = none) : Reader (Option α) where
  run c :=
    match c.next?.bind meaning with
    | some a => (c.advance, .ok (some a))
    | none => (c, .ok none)
  keeps line e _ he := by
    cases line with
    | nil =>
      refine ⟨[], .ok none, leaves_ok List.suffix_rfl fun e' he' => ?_⟩
      have hnone := Cursor.bind_next? he h
      simp [he'.next?_eq, hnone]
    | cons t line =>
      cases ht : meaning t.token with
      | none => exact ⟨_, .ok none, leaves_ok List.suffix_rfl fun e' _ => by simp [ht]⟩
      | some a =>
        exact ⟨line, .ok (some a), leaves_ok (List.suffix_cons t line) fun e' _ => by simp [ht]⟩

/-- Gives the next token and leaves it. -/
def peek : Reader (Option Token) where
  run := Work.look fun c => .ok c.next?
  keeps line e _ _ := by
    cases line with
    | nil =>
      exact ⟨[], .ok e.next?, leaves_ok List.suffix_rfl fun e' he => by
        simp [Work.look, he.next?_eq]⟩
    | cons t line => exact ⟨_, .ok (some t.token), leaves_ok List.suffix_rfl fun _ _ => rfl⟩

/-- Stops at the next token. -/
def unexpected (wanted : Expectation) : Reader α where
  run := Work.look fun c => .error (c.unexpected wanted)
  keeps line e _ _ := by
    cases line with
    | nil =>
      refine ⟨[], .error (e.unexpected wanted), List.suffix_rfl, ?_, fun e' he => ?_⟩
      · rintro _ ⟨⟩
        exact .inl rfl
      · simp [Work.look, Cursor.unexpected, he.next?_eq, he.line_eq]
    | cons t line =>
      refine ⟨_, .error ⟨t.line, .unexpected wanted (some t.token)⟩, List.suffix_rfl, ?_,
        fun _ _ => rfl⟩
      rintro _ ⟨⟩
      exact .inr ⟨t, List.mem_cons_self, rfl⟩

/-- Takes a token that has a meaning. -/
def take (wanted : Expectation) (meaning : Token → Option α) (h : meaning .newline = none) :
    Reader α := do
  match ← accept meaning h with
  | some a => return a
  | none => unexpected wanted

/-- The meaning of one certain token. -/
def only (token t : Token) : Option Unit :=
  if t = token then some () else none

theorem only_newline {token : Token} (h : token ≠ .newline) : only token .newline = none := by
  rw [only, if_neg h.symm]

/-- Takes one certain token if it is next, and says whether it was. -/
def eat (token : Token) (h : token ≠ .newline) : Reader Bool :=
  return (← accept (only token) (only_newline h)).isSome

theorem run_eat_of_eq {token : Token} (h : token ≠ .newline) {c : Cursor}
    (hc : c.next? = some token) : (eat token h).run c = (c.advance, .ok true) := by
  have haccept : (accept (only token) (only_newline h)).run c = (c.advance, .ok (some ())) := by
    simp [accept, hc, only]
  exact Work.bind_of_ok haccept

theorem run_eat_of_ne {token : Token} (h : token ≠ .newline) {c : Cursor}
    (hc : c.next? ≠ some token) : (eat token h).run c = (c, .ok false) := by
  have haccept : (accept (only token) (only_newline h)).run c = (c, .ok none) := by
    cases hnext : c.next? with
    | none => simp [accept, hnext]
    | some t =>
      have ht : t ≠ token := fun e => hc (hnext.trans (congrArg some e))
      simp [accept, hnext, only, ht]
  exact Work.bind_of_ok haccept

theorem exists_leaves_eat {token : Token} (h : token ≠ .newline) {line : List LineToken}
    {e : Cursor} (he : e.atLineEnd) (hnext : (e.prepend line).next? = some token) :
    ∃ rest, Leaves (eat token h).run line e rest (.ok true) ∧ rest.length < line.length := by
  cases line with
  | nil =>
    rcases Cursor.atLineEnd_iff.1 he with hnone | hend
    · exact nomatch hnone.symm.trans hnext
    · exact absurd (Option.some.inj (hend.symm.trans hnext)).symm h
  | cons t rest =>
    exact ⟨rest, leaves_ok (List.suffix_cons t rest) fun _ _ => run_eat_of_eq h hnext,
      Nat.lt_succ_self _⟩

theorem leaves_eat_of_ne {token : Token} (h : token ≠ .newline) {line : List LineToken} {e : Cursor}
    (hnext : (e.prepend line).next? ≠ some token) :
    Leaves (eat token h).run line e line (.ok false) := by
  refine leaves_ok List.suffix_rfl fun e' he => run_eat_of_ne h ?_
  cases line with
  | nil => exact he.next?_eq ▸ hnext
  | cons => exact hnext

/-- Takes one certain token. -/
def sign (token : Token) (h : token ≠ .newline) : Reader Unit :=
  take (.sign token) (only token) (only_newline h)

/-- Looks for a problem of what a reader gives. The problem has the line where the reader starts. -/
def checked (p : Reader α) (problem? : α → Option Problem) : Reader α where
  run c :=
    (p.run >>= fun a => Work.look fun _ =>
      match problem? a with
      | none => .ok a
      | some problem => .error ⟨c.line, problem⟩) c
  keeps line e hline he := by
    obtain ⟨left, d | a, hleft⟩ := p.keeps line e hline he
    · exact ⟨left, .error d, hleft.suffix, hleft.number, fun e' he' =>
        Work.bind_of_error (hleft.run e' he')⟩
    · cases ha : problem? a with
      | none =>
        exact ⟨left, .ok a, leaves_ok hleft.suffix fun e' he' => by
          rw [Work.bind_of_ok (hleft.run e' he'), ha]
          rfl⟩
      | some problem =>
        refine ⟨left, .error ⟨(e.prepend line).line, problem⟩, hleft.suffix, ?_, fun e' he' => ?_⟩
        · rintro _ ⟨⟩
          exact e.line_prepend_mem line
        · rw [Work.bind_of_ok (hleft.run e' he'), ha, he'.line_prepend line]
          rfl

theorem run_checked (p : Reader α) (problem? : α → Option Problem) (c : Cursor) :
    (p.checked problem?).run c = (p.run >>= fun a => Work.look fun _ =>
      match problem? a with
      | none => .ok a
      | some problem => .error ⟨c.line, problem⟩) c := rfl

/-! ## Lists -/

/-- Items behind separators, as long as there is a separator. -/
def separated.loop (separator : Token) (item : Reader α) (c : Cursor) :
    Cursor × Except Diagnostic (List α) :=
  if _hs : c.next? = some separator then
    match _h : item.run c.advance with
    | (d, .error problem) => (d, .error problem)
    | (d, .ok a) =>
      match separated.loop separator item d with
      | (e, .error problem) => (e, .error problem)
      | (e, .ok as) => (e, .ok (a :: as))
  else (c, .ok [])
termination_by c.left.length
decreasing_by
  have hle : d.left.length ≤ c.advance.left.length :=
    congrArg (·.1.left) _h ▸ (item.suffix_run c.advance).length_le
  exact Nat.lt_of_le_of_lt hle (Cursor.length_advance (by simp [_hs]))

/-- What is read of a list: an item behind a separator and more of the list, or nothing. -/
theorem separated.loop_eq (separator : Token) (hs : separator ≠ .newline) (item : Reader α) :
    loop separator item = (eat separator hs).run >>= fun found =>
      if found then item.run >>= fun a => loop separator item >>= fun as => pure (a :: as)
      else pure [] := by
  funext c
  by_cases hc : c.next? = some separator
  · rw [Work.bind_of_ok (run_eat_of_eq hs hc), if_pos rfl, loop, dif_pos hc]
    split <;> rename_i hitem
    · exact (Work.bind_of_error hitem).symm
    · rw [Work.bind_of_ok hitem]
      split <;> rename_i hrest
      · exact (Work.bind_of_error hrest).symm
      · rw [Work.bind_of_ok hrest]
        rfl
  · rw [Work.bind_of_ok (run_eat_of_ne hs hc), if_neg Bool.false_ne_true, loop, dif_neg hc]
    rfl

/-- Items behind separators, as long as there is a separator. -/
def separated (separator : Token) (hs : separator ≠ .newline) (item : Reader α) :
    Reader (List α) where
  run := separated.loop separator item
  keeps line e hline he := by
    -- the induction is on the number of tokens, as each item comes behind a separator
    induction hn : line.length using Nat.strongRecOn generalizing line with
    | ind n ih =>
      rw [separated.loop_eq separator hs item]
      by_cases hnext : (e.prepend line).next? = some separator
      · obtain ⟨rest, hrest⟩ := exists_leaves_eat hs he hnext
        obtain ⟨left, d | a, hleft⟩ := item.keeps rest e (hline.of_suffix hrest.1.suffix) he
        · exact ⟨left, _, hrest.1.bind hleft.bind_error⟩
        · have hlt : left.length < n := by
            have := hleft.suffix.length_le
            omega
          obtain ⟨left', d | as, hleft'⟩ := ih _ hlt left
            (hline.of_suffix (hleft.suffix.trans hrest.1.suffix)) rfl
          · exact ⟨left', _, hrest.1.bind (hleft.bind hleft'.bind_error)⟩
          · exact ⟨left', _, hrest.1.bind (hleft.bind (hleft'.bind (leaves_pure _ left' e)))⟩
      · exact ⟨line, _, (leaves_eat_of_ne hs hnext).bind (leaves_pure [] line e)⟩

/-- One or more items with separators between them. -/
def list (separator : Token) (hs : separator ≠ .newline) (item : Reader α) : Reader (List α) := do
  let first ← item
  return first :: (← separated separator hs item)

end Reader

end Eqasm
