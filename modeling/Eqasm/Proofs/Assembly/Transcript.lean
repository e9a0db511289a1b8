import Eqasm.Proofs.Statement.Exactness

/-!
# Programs line by line

What the lines of a text mean, one after the other. A line declares labels that are new and then has
a body: nothing, a statement, or something that makes the line malformed (`LineForm`). What a line
means depends on its tokens and on the labels declared before it, and on nothing else
(`LineForm.unique`, `exists_lineForm`).

A `Transcript` is a program as far as some lines go. `Transcript.add` adds what one line means, and
`Transcript.Reads` goes through lines from left to right.
-/

namespace Eqasm

/-! ## One line -/

/-- The tokens that declare labels. -/
def declarations (names : List String) : List Token :=
  names.flatMap fun name => [.ident name, .colon]

/-- The labels are not declared yet, and none of them is given twice. -/
def New (declared names : List String) : Prop :=
  names.Nodup ∧ ∀ name ∈ names, name ∉ declared

/-- What stands behind the labels of a line, and its operations if the line is not malformed. -/
inductive BodyForm (declared : List String) : List Token → Option (List Operation) → Prop
  | empty : BodyForm declared [] (some [])
  | statement {body : List Token} {operations : List Operation} (h : Denotes body operations) :
    BodyForm declared body (some operations)
  /-- A label that is declared already, whatever follows it. -/
  | duplicate {name : String} (h : name ∈ declared) (rest : List Token) :
    BodyForm declared (.ident name :: .colon :: rest) none
  | malformed {body : List Token} (hne : body ≠ [])
    (hlabel : ∀ name rest, body ≠ .ident name :: .colon :: rest)
    (hd : ∀ operations, ¬ Denotes body operations) : BodyForm declared body none

/-- A line with the labels that it declares, and its operations if it is not malformed. -/
inductive LineForm (declared : List String) :
    List Token → List String → Option (List Operation) → Prop
  | mk {names : List String} {body : List Token} {operations : Option (List Operation)}
    (hnew : New declared names) (h : BodyForm (declared ++ names) body operations) :
    LineForm declared (declarations names ++ body) names operations

theorem new_nil (declared : List String) : New declared [] :=
  ⟨List.nodup_nil, by simp⟩

theorem new_cons {declared names : List String} {name : String} :
    New declared (name :: names) ↔ name ∉ declared ∧ New (declared ++ [name]) names := by
  simp only [New, List.nodup_cons, List.forall_mem_cons, List.mem_append, List.mem_singleton,
    not_or, forall_and]
  constructor
  · rintro ⟨⟨hname, hnodup⟩, hd, hnames⟩
    exact ⟨hd, hnodup, hnames, fun k hk e => hname (e ▸ hk)⟩
  · rintro ⟨hd, hnodup, hnames, hne⟩
    exact ⟨⟨fun h => hne name h rfl, hnodup⟩, hd, hnames⟩

/-- Labels are new if the first ones are, and the others are new behind them. -/
theorem new_append {declared names others : List String} :
    New declared (names ++ others) ↔ New declared names ∧ New (declared ++ names) others := by
  induction names generalizing declared with
  | nil => simp [new_nil]
  | cons name names ih =>
    rw [List.cons_append, new_cons, new_cons, ih, and_assoc, List.append_assoc]
    rfl

theorem BodyForm.mem_declared {declared : List String} {body : List Token}
    {operations : Option (List Operation)} (h : BodyForm declared body operations) {name : String}
    {rest : List Token} (e : body = .ident name :: .colon :: rest) : name ∈ declared := by
  cases h with
  | empty => cases e
  | statement h => exact absurd e (h.ne_label name rest)
  | duplicate h =>
    cases e
    exact h
  | malformed _ hlabel => exact absurd e (hlabel name rest)

theorem BodyForm.unique {declared : List String} {body : List Token}
    {operations others : Option (List Operation)} (h : BodyForm declared body operations)
    (h' : BodyForm declared body others) : operations = others := by
  cases h with
  | empty =>
    cases h' with
    | empty => rfl
    | statement h' => exact absurd rfl h'.ne_nil
    | malformed hne => exact absurd rfl hne
  | statement h =>
    generalize hbody : body = tokens at h'
    cases h' with
    | empty => exact absurd hbody h.ne_nil
    | statement h' => rw [h.unique (hbody ▸ h')]
    | duplicate _ rest => exact absurd hbody (h.ne_label _ rest)
    | malformed _ _ hd => exact absurd (hbody ▸ h) (hd _)
  | duplicate h rest =>
    cases h' with
    | statement h' => exact absurd rfl (h'.ne_label _ rest)
    | duplicate => rfl
    | malformed _ hlabel => exact absurd rfl (hlabel _ rest)
  | malformed hne hlabel hd =>
    cases h' with
    | empty => exact absurd rfl hne
    | statement h' => exact absurd h' (hd _)
    | duplicate _ rest => exact absurd rfl (hlabel _ rest)
    | malformed => rfl

/-- The labels of a line go as far as they are new. -/
theorem declarations_unique {declared names others : List String} {body rest : List Token}
    (hnew : New declared names) (hnew' : New declared others)
    (hbody : ∀ name tail, body = .ident name :: .colon :: tail → name ∈ declared ++ names)
    (hrest : ∀ name tail, rest = .ident name :: .colon :: tail → name ∈ declared ++ others)
    (e : declarations names ++ body = declarations others ++ rest) :
    names = others ∧ body = rest := by
  induction names generalizing declared others with
  | nil =>
    cases others with
    | nil => exact ⟨rfl, e⟩
    | cons name others =>
      have hname := hbody name _ e
      rw [List.append_nil] at hname
      exact absurd hname (new_cons.1 hnew').1
  | cons name names ih =>
    cases others with
    | nil =>
      have hname := hrest name _ e.symm
      rw [List.append_nil] at hname
      exact absurd hname (new_cons.1 hnew).1
    | cons other others =>
      obtain ⟨e₁, e₂⟩ := List.cons.inj e
      cases e₁
      simp only [List.append_cons declared name names] at hbody
      simp only [List.append_cons declared name others] at hrest
      obtain ⟨rfl, rfl⟩ :=
        ih (new_cons.1 hnew).2 (new_cons.1 hnew').2 hbody hrest (List.cons.inj e₂).2
      exact ⟨rfl, rfl⟩

/-- **What a line means is decided by its tokens and the labels declared before it.** -/
theorem LineForm.unique {declared : List String} {line : List Token} {names others : List String}
    {operations operations' : Option (List Operation)} (h : LineForm declared line names operations)
    (h' : LineForm declared line others operations') :
    names = others ∧ operations = operations' := by
  obtain ⟨hnew, hbody⟩ := h
  generalize e : declarations names ++ _ = tokens at h'
  obtain ⟨hnew', hbody'⟩ := h'
  obtain ⟨rfl, rfl⟩ := declarations_unique hnew hnew' (fun _ _ => hbody.mem_declared)
    (fun _ _ => hbody'.mem_declared) e
  exact ⟨rfl, hbody.unique hbody'⟩

/-- A line that declares no label. -/
theorem exists_bodyForm (declared : List String) {body : List Token}
    (h : ∀ name rest, body = .ident name :: .colon :: rest → name ∈ declared) :
    ∃ operations, BodyForm declared body operations := by
  by_cases hlabel : ∃ name rest, body = .ident name :: .colon :: rest
  · obtain ⟨name, rest, rfl⟩ := hlabel
    exact ⟨none, .duplicate (h name rest rfl) rest⟩
  · by_cases hd : ∃ operations, Denotes body operations
    · obtain ⟨operations, hd⟩ := hd
      exact ⟨some operations, .statement hd⟩
    · by_cases hne : body = []
      · subst hne
        exact ⟨some [], .empty⟩
      · exact ⟨none, .malformed hne (fun name rest e => hlabel ⟨name, rest, e⟩)
          fun operations e => hd ⟨operations, e⟩⟩

/-- A label that is new is declared in front of a line. -/
theorem LineForm.cons {declared : List String} {name : String} (hname : name ∉ declared)
    {line : List Token} {names : List String} {operations : Option (List Operation)}
    (h : LineForm (declared ++ [name]) line names operations) :
    LineForm declared (.ident name :: .colon :: line) (name :: names) operations := by
  obtain ⟨hnew, hbody⟩ := h
  rw [List.append_assoc, List.singleton_append] at hbody
  exact .mk (new_cons.2 ⟨hname, hnew⟩) hbody

/-- Every line means something. -/
theorem exists_lineForm (declared : List String) (line : List Token) :
    ∃ names operations, LineForm declared line names operations := by
  -- the induction is on the number of tokens, as a label takes two
  induction hn : line.length using Nat.strongRecOn generalizing declared line with
  | ind n ih =>
    by_cases h : ∃ name rest, line = .ident name :: .colon :: rest ∧ name ∉ declared
    · obtain ⟨name, rest, rfl, hname⟩ := h
      have hlt : rest.length < n := by
        simp only [List.length_cons] at hn
        omega
      obtain ⟨names, operations, h⟩ := ih _ hlt (declared ++ [name]) rest rfl
      exact ⟨name :: names, operations, h.cons hname⟩
    · have hmem : ∀ name rest, line = .ident name :: .colon :: rest → name ∈ declared :=
        fun name rest e => Classical.byContradiction fun hname => h ⟨name, rest, e, hname⟩
      obtain ⟨operations, hbody⟩ := exists_bodyForm declared hmem
      rw [← List.append_nil declared] at hbody
      exact ⟨[], operations, .mk (new_nil declared) hbody⟩

/-! ## Transcripts -/

/-- A program as far as some lines go. -/
structure Transcript where
  instructions : List Instruction := []
  /-- All labels so far, those of malformed lines included. -/
  declared : List String := []
  /-- The labels since the last instruction, with their lines. -/
  pending : List (String × Nat) := []
  /-- The numbers of the malformed lines. -/
  malformed : List Nat := []

namespace Transcript

/-- Declares the labels of a line. -/
def declare (p : Transcript) (line : Nat) (names : List String) : Transcript :=
  { p with declared := p.declared ++ names, pending := p.pending ++ names.map (·, line) }

/-- Adds operations. The first of them gets the pending labels. -/
def emit (p : Transcript) : List Operation → Transcript
  | [] => p
  | o :: rest =>
    { p with
      instructions := p.instructions ++ ⟨p.pending.map (·.1), o⟩ :: rest.map fun o => ⟨[], o⟩
      pending := [] }

/-- Adds what a line means. A malformed line adds nothing but its labels. -/
def add (p : Transcript) (line : Nat) (names : List String) : Option (List Operation) → Transcript
  | some operations => (p.declare line names).emit operations
  | none => { p.declare line names with malformed := p.malformed ++ [line] }

@[simp] theorem declare_nil (p : Transcript) (line : Nat) : p.declare line [] = p := by
  simp [declare]

theorem add_cons (p : Transcript) (line : Nat) (name : String) (names : List String)
    (operations : Option (List Operation)) :
    p.add line (name :: names) operations = (p.declare line [name]).add line names operations := by
  cases operations <;> simp [add, declare]

/-- The transcript behind lines, the first of which has the number `n`. -/
inductive Reads : Transcript → Nat → List (List Token) → Transcript → Prop
  | nil (p : Transcript) (n : Nat) : Reads p n [] p
  | cons {p last : Transcript} {n : Nat} {line : List Token} {lines : List (List Token)}
    {names : List String} {operations : Option (List Operation)}
    (h : LineForm p.declared line names operations)
    (hs : Reads (p.add n names operations) (n + 1) lines last) : Reads p n (line :: lines) last

/-- Lines lead to one transcript only. -/
theorem Reads.unique {p last other : Transcript} {n : Nat} {lines : List (List Token)}
    (h : p.Reads n lines last) (h' : p.Reads n lines other) : last = other := by
  induction h with
  | nil =>
    cases h'
    rfl
  | cons h _ ih =>
    cases h' with
    | cons h' hs' =>
      obtain ⟨rfl, rfl⟩ := h.unique h'
      exact ih hs'

end Transcript

end Eqasm
