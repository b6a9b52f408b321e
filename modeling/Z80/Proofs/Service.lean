import Z80.Daisy.StateLatch
import Z80.Proofs.Blocks
import Z80.Proofs.Rounds

/-!
The service of an interrupt and the return from it. An entry saves the address
where the program goes on, below the top of its stack, and a handler that only
returns restores it. So the program sees nothing of either but the refresh
counter, the flip-flops and the two bytes that were saved.
-/
namespace Z80

open Bus (Flat)

variable {δ : Type}

theorem Holds.of_eq {memory other : Word → Byte} {addr : Word} {bytes : List Byte}
    (h : Holds memory addr bytes)
    (heq : ∀ i < bytes.length, other (addr + BitVec.ofNat 16 i) = memory (addr + BitVec.ofNat 16 i)) :
    Holds other addr bytes := by
  induction bytes generalizing addr with
  | nil => trivial
  | cons v rest ih =>
      obtain ⟨hfirst, hrest⟩ := h
      have hzero := heq 0 (Nat.succ_pos _)
      rw [BitVec.add_zero] at hzero
      refine ⟨hzero.trans hfirst, ih hrest fun i hi => ?_⟩
      rw [Word.add_one_ofNat]
      exact heq (i + 1) (Nat.succ_lt_succ hi)

/-- Where a word is saved when the top of the stack is at an address. -/
def Word.saved (sp : Word) : List Word :=
  [sp - 1, sp - 2]

namespace Bus.Flat

/-- The bus with a word saved on the stack. -/
def save (sp w : Word) (b : Flat) : Flat :=
  (b.poke (sp - 1) w.high).poke (sp - 2) w.low

/-- The word at an address, its low byte first. -/
def word (a : Word) (b : Flat) : Word :=
  Word.ofBytes (b.peek (a + 1)) (b.peek a)

variable (b : Flat) (sp w : Word)

theorem peek_save_of_not_mem {x : Word} (h : x ∉ sp.saved) : (b.save sp w).peek x = b.peek x := by
  simp only [Word.saved, List.mem_cons, List.not_mem_nil, or_false, not_or] at h
  exact (Memory.get_set_of_ne _ _ h.2).trans (Memory.get_set_of_ne _ _ h.1)

theorem word_save : (b.save sp w).word (sp - 2) = w := by
  have hhigh : sp - 2 + 1 = sp - 1 := by grind
  have hne : sp - 1 ≠ sp - 2 := by grind
  have htop : (b.save sp w).peek (sp - 1) = w.high :=
    (Memory.get_set_of_ne _ _ hne).trans (Memory.get_set_self ..)
  have hlow : (b.save sp w).peek (sp - 2) = w.low := Memory.get_set_self ..
  rw [word, hhigh, htop, hlow, Word.ofBytes_high_low]

theorem word_save_of_not_mem {a : Word} (h : a ∉ sp.saved) (hnext : a + 1 ∉ sp.saved) :
    (b.save sp w).word a = b.word a := by
  rw [word, peek_save_of_not_mem _ _ _ h, peek_save_of_not_mem _ _ _ hnext, word]

end Bus.Flat

namespace Registers

/-- Where the program goes on after an interrupt. -/
def resumeAddress (r : Registers) : Word :=
  if r.halted then r.pc + 1 else r.pc

theorem leaveHalt_eq (r : Registers) :
    r.leaveHalt = { r with pc := r.resumeAddress, halted := false } := by
  simp only [leaveHalt, resumeAddress]
  split
  · rfl
  · rename_i h
    rw [← Bool.eq_false_iff.mpr h]

@[simp] theorem enabled_halted (enable : Bool) (r : Registers) :
    (r.enabled enable).halted = r.halted := rfl

def entered (addr : Word) (r : Registers) : Registers :=
  { r with sp := r.sp - 2, pc := addr, wz := addr }

def popped (w : Word) (r : Registers) : Registers :=
  { r with sp := r.sp + 2, pc := w, wz := w }

/-- Back from an interrupt. -/
def returned (w : Word) (r : Registers) : Registers :=
  { r.popped w with iff1 := r.iff2 }

end Registers

namespace Machine

/-- Every run that lasts long enough comes to another machine. -/
def ComesTo {σ : Type} [Bus σ] [Peripheral δ] (m done : Machine σ δ) : Prop :=
  ∃ cost, ∀ extra, m.runFor (cost + extra) = done.runFor extra

section

variable {σ : Type} [Bus σ] [Peripheral δ] {m mid done : Machine σ δ}

theorem ComesTo.trans (h : m.ComesTo mid) (hrest : mid.ComesTo done) : m.ComesTo done := by
  obtain ⟨cost, hcost⟩ := h
  obtain ⟨more, hmore⟩ := hrest
  refine ⟨cost + more, fun extra => ?_⟩
  rw [Nat.add_assoc, hcost, hmore]

theorem ComesTo.next {r : Nat × Machine σ δ} (h : ∀ remaining, Exec.advance remaining m = r) :
    m.ComesTo m.next := by
  have hcost := Exec.four_le_advance Nat.one_pos m
  rw [h] at hcost
  refine ⟨r.1, fun extra => ?_⟩
  rw [runFor_uniform h (by omega), Nat.add_sub_cancel_left]

end

end Machine

namespace Exec

section

variable (addr : Word) (m : Machine Flat δ)

theorem enter_flat :
    enter addr m =
      ((), ⟨m.cpu.modifyRegs (Registers.entered addr), m.bus.save m.cpu.regs.sp m.cpu.regs.pc⟩) :=
  rfl

theorem ret_flat :
    ret m = ((), m.onRegs (Registers.popped (m.bus.word m.cpu.regs.sp))) := rfl

variable [Peripheral δ]

theorem acknowledge_flat : (acknowledge m).2 = ⟨m.cpu.acknowledged, m.bus⟩ := by
  have hbus : (acknowledge m).2.bus = m.bus := by
    simp only [acknowledge, cpu_bind]
    cases m.cpu.chain with
    | none => rfl
    | some chain =>
        simp only [ite_apply]
        split <;> rfl
  rw [← acknowledge_cpu m, ← hbus]

/-- What answers an acknowledge is settled before the interrupt is accepted. -/
theorem acknowledge_acceptIrq :
    (acknowledge (m.onCpu Cpu.acceptIrq)).1 = (acknowledge m).1 := by
  have hchain : (m.onCpu Cpu.acceptIrq).cpu.chain = m.cpu.chain := rfl
  simp only [acknowledge, cpu_bind, hchain]
  cases m.cpu.chain with
  | none => rfl
  | some chain =>
      simp only [ite_apply]
      split <;> rfl

end

end Exec

/-- A maskable interrupt is served at an address, and saves where the program
goes on. In mode 2 what is saved does not change the table of the addresses. -/
inductive Machine.Serves [Peripheral δ] (m : Machine Flat δ) : Word → Prop
  | call {addr : Word} : Mode.ofByte m.cpu.regs.im = .direct →
    Mode0.ofData (Exec.acknowledge m).1 = .call addr → Serves m addr
  | restart {addr : Word} : Mode.ofByte m.cpu.regs.im = .direct →
    Mode0.ofData (Exec.acknowledge m).1 = .restart addr → Serves m addr
  | fixed : Mode.ofByte m.cpu.regs.im = .fixed → Serves m mode1Entry
  | vectored {entry : Word} : Mode.ofByte m.cpu.regs.im = .vectored →
    entry = Word.ofBytes m.cpu.regs.i ((Exec.acknowledge m).1.setWidth 8) →
    entry ∉ m.cpu.regs.sp.saved → entry + 1 ∉ m.cpu.regs.sp.saved → Serves m (m.bus.word entry)

namespace Cpu

variable (cpu : Cpu δ)

theorem acceptNmi_regs :
    cpu.acceptNmi.regs =
      { Registers.refresh 1 cpu.regs with
        pc := cpu.regs.resumeAddress, halted := false, iff1 := false } := by
  simp only [acceptNmi, Registers.leaveHalt_eq]
  rfl

theorem acceptIrq_regs :
    cpu.acceptIrq.regs =
      { Registers.refresh 1 cpu.regs with
        f := if cpu.afterLdAIR then { cpu.regs.f with p := false } else cpu.regs.f
        pc := cpu.regs.resumeAddress, halted := false, iff1 := false, iff2 := false } := by
  simp only [acceptIrq, Registers.leaveHalt_eq]
  rfl

end Cpu

namespace Exec

theorem takeNmi_flat (m : Machine Flat δ) :
    (takeNmi m).2 = ⟨m.cpu.acceptNmi.modifyRegs (Registers.entered nmiEntry),
      m.bus.save m.cpu.regs.sp m.cpu.regs.resumeAddress⟩ := by
  have henter := congrArg Prod.snd (enter_flat nmiEntry (m.onCpu Cpu.acceptNmi))
  simp only [Machine.onCpu, Cpu.acceptNmi_regs] at henter
  exact henter

variable [Peripheral δ] {m : Machine Flat δ}

theorem takeIrq_flat (m : Machine Flat δ) :
    (takeIrq m).2 = (enterMode (Mode.ofByte m.cpu.regs.im) (acknowledge m).1
      ⟨m.cpu.acceptIrq.acknowledged, m.bus⟩).2 := by
  have him : m.cpu.acceptIrq.acknowledged.regs.im = m.cpu.regs.im :=
    (congrArg Registers.im m.cpu.acceptIrq_regs).trans rfl
  have hack : acknowledge (m.onCpu Cpu.acceptIrq) =
      ((acknowledge m).1, ⟨m.cpu.acceptIrq.acknowledged, m.bus⟩) :=
    Prod.ext (acknowledge_acceptIrq m) (acknowledge_flat (m.onCpu Cpu.acceptIrq))
  have htake : (takeIrq m).2 =
      let a := acknowledge (m.onCpu Cpu.acceptIrq)
      (enterMode (Mode.ofByte a.2.cpu.regs.im) a.1 a.2).2 := rfl
  rw [htake, hack]
  simp only [him]

theorem takeIrq_serves {addr : Word} (h : m.Serves addr) :
    (takeIrq m).2 = ⟨m.cpu.acceptIrq.acknowledged.modifyRegs (Registers.entered addr),
      m.bus.save m.cpu.regs.sp m.cpu.regs.resumeAddress⟩ := by
  have hsp : m.cpu.acceptIrq.acknowledged.regs.sp = m.cpu.regs.sp :=
    (congrArg Registers.sp m.cpu.acceptIrq_regs).trans rfl
  have hpc : m.cpu.acceptIrq.acknowledged.regs.pc = m.cpu.regs.resumeAddress :=
    (congrArg Registers.pc m.cpu.acceptIrq_regs).trans rfl
  have hi : m.cpu.acceptIrq.acknowledged.regs.i = m.cpu.regs.i :=
    (congrArg Registers.i m.cpu.acceptIrq_regs).trans rfl
  rw [takeIrq_flat, ← hsp, ← hpc]
  cases h with
  | call hmode hdata | restart hmode hdata =>
      rw [hmode]
      simp only [enterMode, hdata]
      rfl
  | fixed hmode =>
      rw [hmode]
      rfl
  | vectored hmode hentry hlow hhigh =>
      rw [hmode]
      subst hentry
      rw [← Flat.word_save_of_not_mem m.bus m.cpu.regs.sp m.cpu.regs.resumeAddress hlow hhigh,
        ← hi, ← hsp, ← hpc]
      rfl

theorem execute_return {i : Instr} (hi : i = .retn ∨ i = .reti) (m : Machine Flat δ) :
    (execute i m).2.cpu.regs = m.cpu.regs.returned (m.bus.word m.cpu.regs.sp) ∧
      (execute i m).2.bus = m.bus := by
  rcases hi with rfl | rfl
  · simp only [execute, plain, bind_apply, ret_flat]
    exact ⟨rfl, rfl⟩
  · simp only [execute, plain, bind_apply, ret_flat]
    exact ⟨rfl, rfl⟩

/-- Both returns from an interrupt. -/
theorem step_return {i : Instr} (hi : i = .retn ∨ i = .reti) {code : Byte}
    (hcode : Form.ofExtended code = .fixed i)
    (hbytes : Holds m.bus.peek m.cpu.regs.pc [0xED, code]) :
    (step m).1.1.instr = i ∧
      (step m).2.cpu.regs = m.cpu.regs.extended.returned (m.bus.word m.cpu.regs.sp) ∧
      (step m).2.bus = m.bus := by
  obtain ⟨hregs, hbus⟩ := execute_return hi (m.onRegs Registers.extended)
  simp only [Machine.onRegs_regs, Machine.onRegs_bus, Registers.extended_sp] at hregs hbus
  rw [step_extended Flat.plain hcode hbytes]
  exact ⟨rfl, hregs, hbus⟩

theorem step_ei (hbytes : m.bus.peek m.cpu.regs.pc = 0xFB) :
    step m = ((⟨false, .ei⟩, 4),
      m.onCpu (Cpu.after .ei (Registers.enabled true ∘ Registers.fetched 0))) := by
  have hcode : Opcode.decode .hl (m.bus.peek m.cpu.regs.pc) = .instr (.fixed (.filler true)) :=
    congrArg (Opcode.decode .hl) hbytes
  have hspells : Spells Flat.peek Flat.peek m.bus m.cpu.regs.pc (.filler true) 0 :=
    ⟨_, hcode, rfl, rfl⟩
  rw [step_static Flat.plain hspells, execute_filler]
  simp only [Machine.onRegs_onRegs, Machine.onRegs_retire]
  rfl

end Exec

namespace Machine

variable [Peripheral δ] {m : Machine Flat δ} {addr : Word}

/-- A service routine was entered with the registers of the moment when the
interrupt was accepted. -/
structure Entered (m : Machine Flat δ) (accepted : Registers) (addr : Word)
    (now : Machine Flat δ) : Prop where
  comes : m.ComesTo now
  ready : now.cpu.Ready
  regs : now.cpu.regs = accepted.entered addr
  bus : now.bus = m.bus.save m.cpu.regs.sp m.cpu.regs.resumeAddress

theorem entered_nmi (h : m.cpu.boundary = .nmi) :
    Entered m m.cpu.acceptNmi.regs nmiEntry m.next := by
  have hsingle (remaining : Nat) : Exec.advance remaining m = Exec.takeNmi m :=
    Exec.advance_nmi remaining h
  have hnext := next_uniform hsingle
  rw [Exec.takeNmi_flat] at hnext
  have hundisturbed : m.next.cpu.Undisturbed := by
    rw [hnext]
    exact ⟨congrArg Registers.halted m.cpu.acceptNmi_regs, rfl⟩
  refine ⟨.next hsingle, hundisturbed.ready, ?_, ?_⟩
  · rw [hnext]
    rfl
  · rw [hnext]
    rfl

theorem entered_irq (h : m.cpu.boundary = .irq) (hserves : m.Serves addr) :
    Entered m m.cpu.acceptIrq.regs addr m.next := by
  have hsingle (remaining : Nat) : Exec.advance remaining m = Exec.takeIrq m :=
    Exec.advance_irq remaining h
  have hnext := next_uniform hsingle
  rw [Exec.takeIrq_serves hserves] at hnext
  have hpending := (Cpu.boundary_eq_irq.mp h).2.1
  have hundisturbed : m.next.cpu.Undisturbed := by
    rw [hnext]
    refine ⟨congrArg Registers.halted m.cpu.acceptIrq_regs, ?_⟩
    exact Bool.or_eq_false_iff.mpr ⟨hpending, rfl⟩
  refine ⟨.next hsingle, hundisturbed.ready, ?_, ?_⟩
  · rw [hnext]
    rfl
  · rw [hnext]
    rfl

theorem next_return (h : m.cpu.Ready) {i : Instr} (hi : i = .retn ∨ i = .reti) {code : Byte}
    (hcode : Form.ofExtended code = .fixed i)
    (hbytes : Holds m.bus.peek m.cpu.regs.pc [0xED, code]) :
    m.ComesTo m.next ∧
      m.next.cpu.regs = m.cpu.regs.extended.returned (m.bus.word m.cpu.regs.sp) ∧
      m.next.bus = m.bus := by
  obtain ⟨hinstr, hregs, hbus⟩ := Exec.step_return hi hcode hbytes
  have hcloses : (Exec.step m).1.1.instr.closesLoop = false := by
    rw [hinstr]
    rcases hi with rfl | rfl <;> rfl
  have hsingle := Exec.advance_single h hcloses
  refine ⟨.next hsingle, ?_, ?_⟩
  · rw [next_uniform hsingle, elapse_regs, hregs]
  · rw [next_uniform hsingle, elapse_bus, hbus]

/-- An `EI` leaves time for the return behind it. -/
theorem next_ei (h : m.cpu.Ready) (hbytes : m.bus.peek m.cpu.regs.pc = 0xFB) :
    m.ComesTo m.next ∧ m.next.cpu.Ready ∧
      m.next.cpu.regs = (m.cpu.regs.fetched 0).enabled true ∧ m.next.bus = m.bus := by
  have hstep := Exec.step_ei hbytes
  have hcloses : (Exec.step m).1.1.instr.closesLoop = false := by
    rw [hstep]
    rfl
  have hsingle := Exec.advance_single h hcloses
  have hcomes : m.ComesTo m.next := .next hsingle
  rw [hstep] at hsingle
  have hnext := next_uniform hsingle
  have hregs : m.next.cpu.regs = (m.cpu.regs.fetched 0).enabled true := by
    rw [hnext]
    rfl
  refine ⟨hcomes, ⟨Cpu.boundary_of_eiDelay ?_, ?_⟩, hregs, ?_⟩
  · rw [hnext]
    rfl
  · rw [hregs, Registers.enabled_halted, Registers.fetched_halted, h.running]
  · rw [hnext, elapse_bus, onCpu_bus]

end Machine

namespace Registers

theorem returned_extended (w : Word) (r : Registers) :
    r.extended.returned w =
      { refresh 2 r with
        sp := r.sp + 2, pc := w, wz := w, prepc := r.pc, iff1 := r.iff2 } := by
  rw [extended_eq]
  rfl

theorem enabled_fetched (r : Registers) :
    (r.fetched 0).enabled true =
      { refresh 1 r with pc := r.pc + 1, prepc := r.pc, iff1 := true, iff2 := true } := by
  have hpc : r.pc + 1 + BitVec.ofNat 16 0 = r.pc + 1 := BitVec.add_zero _
  simp only [enabled, fetched, skipped, passed, start, refresh, Function.comp_apply, hpc,
    Bool.or_true]

end Registers

namespace Cpu

/-! The registers behind a handler that only returns. -/

theorem returned_nmi (cpu : Cpu δ) :
    (cpu.acceptNmi.regs.entered nmiEntry).extended.returned cpu.regs.resumeAddress =
      { Registers.refresh 3 cpu.regs with
        pc := cpu.regs.resumeAddress, wz := cpu.regs.resumeAddress, prepc := nmiEntry
        iff1 := cpu.regs.iff2, halted := false } := by
  rw [Registers.returned_extended, acceptNmi_regs, ← Registers.refresh_refresh 1 2]
  simp only [Registers.entered, Registers.refresh, BitVec.sub_add_cancel]

theorem returned_irq (addr : Word) (cpu : Cpu δ) :
    (((cpu.acceptIrq.regs.entered addr).fetched 0).enabled true).extended.returned
        cpu.regs.resumeAddress =
      { Registers.refresh 4 cpu.regs with
        f := if cpu.afterLdAIR then { cpu.regs.f with p := false } else cpu.regs.f
        pc := cpu.regs.resumeAddress, wz := cpu.regs.resumeAddress, prepc := addr + 1
        iff1 := true, iff2 := true, halted := false } := by
  rw [Registers.returned_extended, Registers.enabled_fetched, acceptIrq_regs,
    ← Registers.refresh_refresh 2 2, ← Registers.refresh_refresh 1 1 cpu.regs]
  simp only [Registers.entered, Registers.refresh, BitVec.sub_add_cancel]

end Cpu

namespace Machine

variable [Peripheral δ]

/-- Entry and return leave the interrupted program as it was. A handler that
only returns, after a maskable interrupt with an `EI` in front, leads back to where
the program goes on. What is left of both is counted by the refresh counter
(`Registers.refresh_r_toNat`). -/
theorem service_returns (m : Machine Flat δ) :
    let r := m.cpu.regs
    (m.cpu.boundary = .nmi → ∀ code, Form.ofExtended code = .fixed .retn →
      Holds m.bus.peek nmiEntry [0xED, code] →
      (∀ i < 2, nmiEntry + BitVec.ofNat 16 i ∉ r.sp.saved) →
      let done := next^[2] m
      m.ComesTo done ∧
        done.cpu.regs =
          { Registers.refresh 3 r with
            pc := r.resumeAddress, wz := r.resumeAddress, prepc := nmiEntry
            iff1 := r.iff2, halted := false } ∧
        done.bus.io = m.bus.io ∧ ∀ x ∉ r.sp.saved, done.bus.peek x = m.bus.peek x) ∧
    (m.cpu.boundary = .irq → ∀ addr, m.Serves addr →
      Holds m.bus.peek addr [0xFB, 0xED, 0x4D] →
      (∀ i < 3, addr + BitVec.ofNat 16 i ∉ r.sp.saved) →
      let done := next^[3] m
      m.ComesTo done ∧
        done.cpu.regs =
          { Registers.refresh 4 r with
            f := if m.cpu.afterLdAIR then { r.f with p := false } else r.f
            pc := r.resumeAddress, wz := r.resumeAddress, prepc := addr + 1
            iff1 := true, iff2 := true, halted := false } ∧
        done.bus.io = m.bus.io ∧ ∀ x ∉ r.sp.saved, done.bus.peek x = m.bus.peek x) := by
  intro r
  constructor
  · intro hboundary code hcode hbytes hapart done
    obtain ⟨hcomes, hready, hregs, hbus⟩ := entered_nmi hboundary
    have hsp : m.next.cpu.regs.sp = r.sp - 2 := by
      rw [hregs, Cpu.acceptNmi_regs]
      rfl
    have hpc : m.next.cpu.regs.pc = nmiEntry := by
      rw [hregs]
      rfl
    have hhandler : Holds m.next.bus.peek m.next.cpu.regs.pc [0xED, code] := by
      rw [hpc, hbus]
      exact hbytes.of_eq fun i hi => Flat.peek_save_of_not_mem _ _ _ (hapart i hi)
    obtain ⟨hreturn, hdone, hkept⟩ := next_return hready (.inl rfl) hcode hhandler
    have hbus' : done.bus = m.bus.save r.sp r.resumeAddress := hkept.trans hbus
    refine ⟨hcomes.trans hreturn, ?_, ?_, fun x hx => ?_⟩
    · rw [hsp, hbus, Flat.word_save, hregs] at hdone
      exact hdone.trans m.cpu.returned_nmi
    · rw [hbus']
      rfl
    · rw [hbus']
      exact Flat.peek_save_of_not_mem _ _ _ hx
  · intro hboundary addr hserves hbytes hapart done
    obtain ⟨hcomes, hready, hregs, hbus⟩ := entered_irq hboundary hserves
    have hhandler : Holds m.next.bus.peek addr [0xFB, 0xED, 0x4D] := by
      rw [hbus]
      exact hbytes.of_eq fun i hi => Flat.peek_save_of_not_mem _ _ _ (hapart i hi)
    have hpc : m.next.cpu.regs.pc = addr := by
      rw [hregs]
      rfl
    obtain ⟨hei, hreti⟩ := hhandler
    rw [← hpc] at hei
    obtain ⟨hstays, hready', hregs', hbus'⟩ := next_ei hready hei
    have hsp : m.next.next.cpu.regs.sp = r.sp - 2 := by
      rw [hregs', Registers.enabled_fetched, hregs, Cpu.acceptIrq_regs]
      rfl
    have hrest : Holds m.next.next.bus.peek m.next.next.cpu.regs.pc [0xED, 0x4D] := by
      rw [hregs', Registers.enabled_fetched, hpc, hbus']
      exact hreti
    obtain ⟨hreturn, hdone, hkept⟩ := next_return hready' (.inr rfl) rfl hrest
    have hbus'' : done.bus = m.bus.save r.sp r.resumeAddress := (hkept.trans hbus').trans hbus
    refine ⟨hcomes.trans (hstays.trans hreturn), ?_, ?_, fun x hx => ?_⟩
    · rw [hsp, hbus', hbus, Flat.word_save, hregs', hregs] at hdone
      exact hdone.trans (m.cpu.returned_irq addr)
    · rw [hbus'']
      rfl
    · rw [hbus'']
      exact Flat.peek_save_of_not_mem _ _ _ hx

/-- Two processors are woken from a halt with the top of their stacks at the bottom
of memory: one by the NMI line and one by a device on a chain. -/
theorem service_returns_halted :
    let chain : DaisyChain StateLatch :=
      { devices := [{ vector := 0x10, state := 1 }], length_le := by decide, request := some 0 }
    let m : Machine Flat StateLatch :=
      ⟨{ regs := { sp := 1, pc := 0x20, halted := true, iff2 := true }, nmiPending := true },
        Flat.load 0x66 [0xED, 0x45] {}⟩
    let k : Machine Flat StateLatch :=
      ⟨{ regs := { sp := 1, pc := 0x20, halted := true, iff1 := true, im := 2 }
         chain := some chain },
        Flat.load 0x10 [0x40, 0x00] (Flat.load 0x40 [0xFB, 0xED, 0x4D] {})⟩
    m.cpu.boundary = .nmi ∧ Holds m.bus.peek nmiEntry [0xED, 0x45] ∧
    (∀ i < 2, nmiEntry + BitVec.ofNat 16 i ∉ m.cpu.regs.sp.saved) ∧
    (next^[2] m).cpu.regs.pc = 0x21 ∧ (next^[2] m).cpu.regs.sp = 1 ∧
    (next^[2] m).cpu.regs.iff1 = true ∧
    k.cpu.boundary = .irq ∧ k.Serves 0x40 ∧ Holds k.bus.peek 0x40 [0xFB, 0xED, 0x4D] ∧
    (∀ i < 3, (0x40 : Word) + BitVec.ofNat 16 i ∉ k.cpu.regs.sp.saved) ∧
    (next^[3] k).cpu.regs.pc = 0x21 ∧ (next^[3] k).cpu.regs.sp = 1 ∧
    (next^[3] k).cpu.regs.halted = false := by
  intro chain m k
  have hbytes : Holds m.bus.peek nmiEntry [0xED, 0x45] := by
    decide +kernel
  have hapart : ∀ i < 2, nmiEntry + BitVec.ofNat 16 i ∉ m.cpu.regs.sp.saved := by
    decide +kernel
  have hword : k.bus.word 0x10 = 0x40 := by
    decide +kernel
  have hserves : k.Serves 0x40 := by
    rw [← hword]
    exact .vectored rfl (by decide +kernel) (by decide +kernel) (by decide +kernel)
  have hbytes' : Holds k.bus.peek 0x40 [0xFB, 0xED, 0x4D] := by
    decide +kernel
  have hapart' : ∀ i < 3, (0x40 : Word) + BitVec.ofNat 16 i ∉ k.cpu.regs.sp.saved := by
    decide +kernel
  obtain ⟨-, hregs, -⟩ := (service_returns m).1 rfl 0x45 rfl hbytes hapart
  obtain ⟨-, hregs', -⟩ := (service_returns k).2 rfl 0x40 hserves hbytes' hapart'
  refine ⟨rfl, hbytes, hapart, ?_, ?_, ?_, rfl, hserves, hbytes', hapart', ?_, ?_, ?_⟩
  · rw [hregs]
    rfl
  · rw [hregs]
    rfl
  · rw [hregs]
  · rw [hregs']
    rfl
  · rw [hregs']
    rfl
  · rw [hregs']

end Machine
end Z80
