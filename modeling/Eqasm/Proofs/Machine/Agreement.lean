import Eqasm.Proofs.Machine.Effect
import Eqasm.Proofs.Memory.Agreement

/-!
# Datapaths in agreement

Two datapaths agree if they have the same registers, flags and bytes in memory; their measurement
results and backends may differ (`Datapath.Agrees`). An operation other than a bundle does the same
on both and keeps them in agreement, unless it reads a measurement result (`Agrees.compute`), and so
does every write of a user (`Agrees.write`).
-/

namespace Eqasm

/-- The operation reads a measurement result. -/
def Operation.ReadsResult (o : Operation) : Prop :=
  ∃ rd qs, o = .fmr rd qs

namespace Datapath

variable {β γ : Type}

/-- The datapaths have the same registers, flags and bytes in memory. -/
structure Agrees (s : Datapath β) (t : Datapath γ) : Prop where
  general : s.general = t.general
  floating : s.floating = t.floating
  targets : s.targets = t.targets
  memory : s.memory.Agrees t.memory
  flags : s.flags = t.flags

namespace Agrees

variable {s : Datapath β} {t : Datapath γ}

/-! ## Reading -/

theorem address (h : s.Agrees t) (rt : Nat) (offset : Int32) :
    s.address rt offset = t.address rt offset := by
  rw [Datapath.address, Datapath.address, h.general, h.memory.size]

theorem loaded (h : s.Agrees t) (a : Nat) (op : LoadOp) : s.loaded a op = t.loaded a op := by
  cases op with
  | word => rw [Datapath.loaded, Datapath.loaded, h.memory.readWord]
  | signedByte | unsignedByte =>
    rw [Datapath.loaded, Datapath.loaded, h.general, h.memory.readByte]

/-! ## Writing -/

theorem writeGeneral (h : s.Agrees t) (rd : Nat) (c : Cell) :
    Paired Agrees (s.writeGeneral rd c) (t.writeGeneral rd c) := by
  have hwrite : s.general.write rd c = t.general.write rd c := by rw [h.general]
  exact .bind_eq hwrite fun b => .ok { h with general := rfl }

theorem writeUnsigned (h : s.Agrees t) (rd n : Nat) :
    Paired Agrees (s.writeUnsigned rd n) (t.writeUnsigned rd n) := by
  have hcell : Cell.ofUnsigned n s.general.width = Cell.ofUnsigned n t.general.width := by
    rw [h.general]
  exact .bind_eq hcell fun c => h.writeGeneral rd c

theorem writeSigned (h : s.Agrees t) (rd : Nat) (v : Int) :
    Paired Agrees (s.writeSigned rd v) (t.writeSigned rd v) := by
  have hcell : Cell.ofSigned v s.general.width = Cell.ofSigned v t.general.width := by
    rw [h.general]
  exact .bind_eq hcell fun c => h.writeGeneral rd c

theorem writeFloating (h : s.Agrees t) (fd : Nat) (c : Cell) :
    Paired Agrees (s.writeFloating fd c) (t.writeFloating fd c) := by
  have hwrite : s.floating.write fd c = t.floating.write fd c := by rw [h.floating]
  exact .bind_eq hwrite fun b => .ok { h with floating := rfl }

/-- Memory that was written in both datapaths. -/
theorem withMemory (h : s.Agrees t) {x y : Except Fault Memory} (hxy : Paired Memory.Agrees x y) :
    Paired Agrees (x >>= fun m => pure { s with memory := m })
      (y >>= fun m => pure { t with memory := m }) :=
  hxy.bind fun _ _ hm => .ok { h with memory := hm }

theorem stored (h : s.Agrees t) (a : Nat) (c : Cell) (op : StoreOp) :
    Paired Memory.Agrees (s.stored a c op) (t.stored a c op) := by
  cases op with
  | word => exact .bind_eq rfl fun w => h.memory.writeWord a w
  | byte => exact h.memory.writeByte a c.lowByte

/-- **Operations that read no measurement result do the same on datapaths in agreement.** -/
theorem compute (h : s.Agrees t) {o : Operation} (ho : o.ReadsResult → s.results = t.results) :
    Paired Agrees (s.compute o) (t.compute o) := by
  have hread : ∀ i, s.general.read i = t.general.read i := by simp only [h.general, implies_true]
  have hreadFloating : ∀ i, s.floating.read i = t.floating.read i := by
    simp only [h.floating, implies_true]
  have hsingle : ∀ i, s.floating.readSingle i = t.floating.readSingle i := by
    simp only [h.floating, implies_true]
  cases o with
  | nop | stop | qwait | br | bundle => exact .ok h
  | qwaitr rs => exact .bind_eq (hread rs) fun _ => .ok h
  | smis si qubits =>
    have hset : (TargetRegisters.setSingle si qubits).exec s.targets =
        (TargetRegisters.setSingle si qubits).exec t.targets := by rw [h.targets]
    exact .bind_eq hset fun _ => .ok { h with targets := rfl }
  | smit ti pairs =>
    have hset : (TargetRegisters.setPair ti pairs).exec s.targets =
        (TargetRegisters.setPair ti pairs).exec t.targets := by rw [h.targets]
    exact .bind_eq hset fun _ => .ok { h with targets := rfl }
  | not rd rt => exact .bind_eq (hread rt) fun c => h.writeGeneral rd c.not
  | cmp rs rt =>
    exact .bind_eq (hread rs) fun a => .bind_eq (hread rt) fun b =>
      .ok { h with flags := congrArg (Flags.compare · a b) h.flags }
  | fbr flag rd =>
    rw [Datapath.compute, Datapath.compute, h.flags]
    exact h.writeUnsigned rd _
  | fmr rd qs =>
    have hresult : s.result qs = t.result qs := by rw [result, result, ho ⟨rd, qs, rfl⟩]
    exact .bind_eq hresult fun outcome => h.writeUnsigned rd outcome
  | ldi rd imm => exact h.writeSigned rd imm.toInt
  | ldui rd rs imm =>
    exact .bind_eq (hread rs) fun low => .bind_eq rfl fun c => h.writeGeneral rd c
  | alu op rd rs rt =>
    exact .bind_eq (hread rs) fun a => .bind_eq (hread rt) fun b => .bind_eq rfl fun c =>
      h.writeGeneral rd c
  | load op rd rt offset =>
    exact .bind_eq (h.address rt offset) fun a => .bind_eq (h.loaded a op) fun c =>
      h.writeGeneral rd c
  | store op rs rt offset =>
    exact .bind_eq (h.address rt offset) fun a => .bind_eq (hread rs) fun c =>
      h.withMemory (h.stored a c op)
  | fcvtws rd fs => exact .bind_eq (hsingle fs) fun x => h.writeSigned rd _
  | fcvtsw fd rs => exact .bind_eq (hread rs) fun c => h.writeFloating fd _
  | flw fd rt offset =>
    exact .bind_eq (h.address rt offset) fun a => .bind_eq (h.memory.readWord a) fun w =>
      h.writeFloating fd _
  | fsw fs rt offset =>
    exact .bind_eq (h.address rt offset) fun a => .bind_eq (hreadFloating fs) fun c =>
      h.withMemory (h.stored a c .word)
  | fpu op fd fs ft =>
    exact .bind_eq (hreadFloating fs) fun a => .bind_eq (hreadFloating ft) fun b =>
      .bind_eq rfl fun c => h.writeFloating fd c
  | fcmp op rd fs ft =>
    exact .bind_eq (hsingle fs) fun x => .bind_eq (hsingle ft) fun y => h.writeUnsigned rd _

theorem written (h : s.Agrees t) (w : Write) : Paired Agrees (s.written w) (t.written w) := by
  cases w with
  | general i c => exact h.writeGeneral i c
  | signed i v => exact h.writeSigned i v
  | clearGeneral => exact .ok { h with general := congrArg Bank.clear h.general }
  | floating i c => exact h.writeFloating i c
  | clearFloating => exact .ok { h with floating := congrArg Bank.clear h.floating }
  | byte a b => exact h.withMemory (h.memory.writeByte a b)
  | word a w => exact h.withMemory (h.memory.writeWord a w)
  | image a image => exact h.withMemory (h.memory.loadImage a image)

/-- Users write the same to datapaths in agreement. -/
theorem write (h : s.Agrees t) (w : Write) : ∃ s' t' r, Datapath.write w s = (s', r) ∧
    Datapath.write w t = (t', r) ∧ s'.Agrees t' := by
  rw [write_eq, write_eq]
  exact Work.attempt_paired (h.written w) h

variable [Backend β] [Backend γ]

/-- Datapaths in agreement execute an operation other than a bundle in the same way. -/
theorem execute (h : s.Agrees t) {o : Operation} (ho : ∀ pi ops, o ≠ .bundle pi ops)
    (hresults : o.ReadsResult → s.results = t.results) : ∃ s' t' r, s.execute o = (s', r) ∧
      t.execute o = (t', r) ∧ s'.Agrees t' ∧ s.Effect s' ∧ t.Effect t' := by
  rw [execute_eq ho, execute_eq ho]
  rcases paired_iff.1 (h.compute hresults) with ⟨s', t', hs, ht, hst⟩ | ⟨cause, hs, ht⟩
  · rw [hs, ht, h.flags]
    exact ⟨s', t', _, rfl, rfl, hst, effect_of_compute hs, effect_of_compute ht⟩
  · rw [hs, ht]
    exact ⟨s, t, _, rfl, rfl, h, .none, .none⟩

end Agrees

end Datapath

end Eqasm
