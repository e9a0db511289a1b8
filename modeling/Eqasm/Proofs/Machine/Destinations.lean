import Eqasm.Proofs.Except
import Eqasm.Proofs.Machine.Atomicity

/-!
# Destinations

The places of the datapath that an operation writes to (`Datapath.destinations`). An operation other
than a bundle makes one accepted write to its destinations, or none if it has no destination
(`Datapath.writes_of_compute`).
-/

namespace Eqasm

namespace Datapath

/-- A place in the datapath. -/
inductive Place where
  | general (i : Nat)
  | floating (i : Nat)
  | single (i : Nat)
  | pair (i : Nat)
  /-- The byte of data memory at `a`. -/
  | byte (a : Nat)
  | flag (f : Flag)
  /-- The last outcome for qubit `q`. -/
  | result (q : Nat)
  | backend
  deriving DecidableEq, Repr

namespace Place

/-- The flags that a comparison sets. -/
def relations : List Place :=
  [.flag (.relation .eq), .flag (.relation .ne), .flag (.relation .ltu), .flag (.relation .geu),
    .flag (.relation .leu), .flag (.relation .gtu), .flag (.relation .lt), .flag (.relation .ge),
    .flag (.relation .le), .flag (.relation .gt)]

/-- The `n` bytes from `a` on. -/
def bytes (a n : Nat) : List Place :=
  (List.range n).map fun i => .byte (a + i)

/-- What calls can change: the backend, and the results of the qubits that they measure. -/
def ofCalls (calls : List Call) : List Place :=
  .backend :: calls.filterMap fun
    | .measure q => some (.result q)
    | _ => none

@[simp] theorem relation_mem_relations (r : Relation) : .flag (.relation r) ∈ relations := by
  cases r <;> simp [relations]

@[simp] theorem byte_mem_bytes {a n c : Nat} : .byte c ∈ bytes a n ↔ a ≤ c ∧ c < a + n := by
  simp only [bytes, List.mem_map, List.mem_range, byte.injEq]
  constructor
  · rintro ⟨i, hi, rfl⟩
    omega
  · rintro ⟨hle, hlt⟩
    exact ⟨c - a, by omega, by omega⟩

@[simp] theorem backend_mem_ofCalls (calls : List Call) : .backend ∈ ofCalls calls :=
  List.mem_cons_self

@[simp] theorem result_mem_ofCalls {calls : List Call} {q : Nat} :
    .result q ∈ ofCalls calls ↔ .measure q ∈ calls := by
  simp only [ofCalls, List.mem_cons, reduceCtorEq, false_or, List.mem_filterMap]
  constructor
  · rintro ⟨c, hc, e⟩
    cases c with
    | measure p =>
      cases e
      exact hc
    | gate | pairGate => cases e
  · exact fun h => ⟨_, h, rfl⟩

end Place

variable {β : Type}

/-- The `n` bytes from the effective address on, if there is such an address. -/
def bytesAt (s : Datapath β) (rt : Nat) (offset : Int32) (n : Nat) : List Place :=
  match s.address rt offset with
  | .ok a => Place.bytes a n
  | .error _ => []

/-- The places that an operation writes to. -/
def destinations (s : Datapath β) : Operation → List Place
  | .nop | .stop | .qwait _ | .qwaitr _ | .br _ _ => []
  | .not rd _ | .fbr _ rd | .fmr rd _ | .ldi rd _ | .ldui rd _ _ | .alu _ rd _ _
  | .load _ rd _ _ | .fcvtws rd _ | .fcmp _ rd _ _ => [.general rd]
  | .fcvtsw fd _ | .flw fd _ _ | .fpu _ fd _ _ => [.floating fd]
  | .smis si _ => [.single si]
  | .smit ti _ => [.pair ti]
  | .cmp _ _ => Place.relations
  | .store .word _ rt offset | .fsw _ rt offset => s.bytesAt rt offset 4
  | .store .byte _ rt offset => s.bytesAt rt offset 1
  | .bundle _ ops =>
    match resolve s.targets ops with
    | .ok calls => Place.ofCalls calls
    | .error _ => []

/-! ## Writes -/

/-- A datapath as it is, or behind one accepted write to some places. -/
inductive Writes (s : Datapath β) : List Place → Datapath β → Prop
  | nothing : Writes s [] s
  | general {i : Nat} {c : Cell} {b : Bank} (h : s.general.write i c = .ok b) :
    Writes s [.general i] { s with general := b }
  | floating {i : Nat} {c : Cell} {b : Bank} (h : s.floating.write i c = .ok b) :
    Writes s [.floating i] { s with floating := b }
  | single {i : Nat} {qubits : List Nat} {t : TargetRegisters}
    (h : TargetRegisters.setSingle i qubits s.targets = (t, .ok ())) :
    Writes s [.single i] { s with targets := t }
  | pair {i : Nat} {pairs : List (Nat × Nat)} {t : TargetRegisters}
    (h : TargetRegisters.setPair i pairs s.targets = (t, .ok ())) :
    Writes s [.pair i] { s with targets := t }
  | flags (a b : Cell) : Writes s Place.relations { s with flags := s.flags.compare a b }
  | byte {a : Nat} {b : UInt8} {m : Memory} (h : Memory.writeByte a b s.memory = (m, .ok ())) :
    Writes s (Place.bytes a 1) { s with memory := m }
  | word {a : Nat} {w : UInt32} {m : Memory} (h : Memory.writeWord a w s.memory = (m, .ok ())) :
    Writes s (Place.bytes a 4) { s with memory := m }

variable {s t : Datapath β}

theorem writes_writeGeneral {i : Nat} {c : Cell} (h : s.writeGeneral i c = .ok t) :
    Writes s [.general i] t := by
  obtain ⟨b, hb, e⟩ := except_bind_eq_ok.1 h
  cases e
  exact .general hb

theorem writes_writeUnsigned {i n : Nat} (h : s.writeUnsigned i n = .ok t) :
    Writes s [.general i] t := by
  obtain ⟨c, -, h⟩ := except_bind_eq_ok.1 h
  exact writes_writeGeneral h

theorem writes_writeSigned {i : Nat} {v : Int} (h : s.writeSigned i v = .ok t) :
    Writes s [.general i] t := by
  obtain ⟨c, -, h⟩ := except_bind_eq_ok.1 h
  exact writes_writeGeneral h

theorem writes_writeFloating {i : Nat} {c : Cell} (h : s.writeFloating i c = .ok t) :
    Writes s [.floating i] t := by
  obtain ⟨b, hb, e⟩ := except_bind_eq_ok.1 h
  cases e
  exact .floating hb

theorem bytesAt_of_address {rt a : Nat} {offset : Int32} (h : s.address rt offset = .ok a)
    (n : Nat) : s.bytesAt rt offset n = Place.bytes a n := by
  rw [bytesAt, h]

theorem writes_stored_word {rt a : Nat} {offset : Int32} {c : Cell} {m : Memory}
    (ha : s.address rt offset = .ok a) (h : s.stored a c .word = .ok m) :
    Writes s (s.bytesAt rt offset 4) { s with memory := m } := by
  obtain ⟨w, -, h⟩ := except_bind_eq_ok.1 h
  rw [bytesAt_of_address ha]
  exact .word (Work.exec_eq_ok.1 h)

/-- **An operation other than a bundle makes one accepted write to its destinations**, or none if it
has no destination. -/
theorem writes_of_compute {o : Operation} (ho : ∀ pi ops, o ≠ .bundle pi ops)
    (h : s.compute o = .ok t) : Writes s (s.destinations o) t := by
  cases o with
  | nop | stop | qwait | br =>
    cases h
    exact .nothing
  | bundle pi ops => exact absurd rfl (ho pi ops)
  | qwaitr rs =>
    obtain ⟨c, -, e⟩ := except_bind_eq_ok.1 h
    cases e
    exact .nothing
  | smis si qubits =>
    obtain ⟨targets, ht, e⟩ := except_bind_eq_ok.1 h
    cases e
    exact .single (Work.exec_eq_ok.1 ht)
  | smit ti pairs =>
    obtain ⟨targets, ht, e⟩ := except_bind_eq_ok.1 h
    cases e
    exact .pair (Work.exec_eq_ok.1 ht)
  | cmp rs rt =>
    obtain ⟨a, -, h⟩ := except_bind_eq_ok.1 h
    obtain ⟨b, -, e⟩ := except_bind_eq_ok.1 h
    cases e
    exact .flags a b
  | not rd rt =>
    obtain ⟨c, -, h⟩ := except_bind_eq_ok.1 h
    exact writes_writeGeneral h
  | fbr flag rd => exact writes_writeUnsigned h
  | fmr rd qs =>
    obtain ⟨outcome, -, h⟩ := except_bind_eq_ok.1 h
    exact writes_writeUnsigned h
  | ldi rd imm => exact writes_writeSigned h
  | ldui rd rs imm =>
    obtain ⟨a, -, h⟩ := except_bind_eq_ok.1 h
    obtain ⟨c, -, h⟩ := except_bind_eq_ok.1 h
    exact writes_writeGeneral h
  | alu op rd rs rt =>
    obtain ⟨a, -, h⟩ := except_bind_eq_ok.1 h
    obtain ⟨b, -, h⟩ := except_bind_eq_ok.1 h
    obtain ⟨c, -, h⟩ := except_bind_eq_ok.1 h
    exact writes_writeGeneral h
  | load op rd rt offset =>
    obtain ⟨a, -, h⟩ := except_bind_eq_ok.1 h
    obtain ⟨c, -, h⟩ := except_bind_eq_ok.1 h
    exact writes_writeGeneral h
  | store op rs rt offset =>
    obtain ⟨a, ha, h⟩ := except_bind_eq_ok.1 h
    obtain ⟨c, -, h⟩ := except_bind_eq_ok.1 h
    obtain ⟨m, hm, e⟩ := except_bind_eq_ok.1 h
    cases e
    cases op with
    | word => exact writes_stored_word ha hm
    | byte =>
      rw [destinations, bytesAt_of_address ha]
      exact .byte (Work.exec_eq_ok.1 hm)
  | fcvtws rd fs =>
    obtain ⟨x, -, h⟩ := except_bind_eq_ok.1 h
    exact writes_writeSigned h
  | fcvtsw fd rs =>
    obtain ⟨c, -, h⟩ := except_bind_eq_ok.1 h
    exact writes_writeFloating h
  | flw fd rt offset =>
    obtain ⟨a, -, h⟩ := except_bind_eq_ok.1 h
    obtain ⟨w, -, h⟩ := except_bind_eq_ok.1 h
    exact writes_writeFloating h
  | fsw fs rt offset =>
    obtain ⟨a, ha, h⟩ := except_bind_eq_ok.1 h
    obtain ⟨c, -, h⟩ := except_bind_eq_ok.1 h
    obtain ⟨m, hm, e⟩ := except_bind_eq_ok.1 h
    cases e
    exact writes_stored_word ha hm
  | fpu op fd fs ft =>
    obtain ⟨a, -, h⟩ := except_bind_eq_ok.1 h
    obtain ⟨b, -, h⟩ := except_bind_eq_ok.1 h
    obtain ⟨c, -, h⟩ := except_bind_eq_ok.1 h
    exact writes_writeFloating h
  | fcmp op rd fs ft =>
    obtain ⟨x, -, h⟩ := except_bind_eq_ok.1 h
    obtain ⟨y, -, h⟩ := except_bind_eq_ok.1 h
    exact writes_writeUnsigned h

end Datapath

end Eqasm
