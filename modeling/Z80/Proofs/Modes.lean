import Z80.Host
import Z80.Proofs.Image
import Z80.Proofs.Latches
import Z80.Proofs.Opcodes

/-!
The interrupt mode. Only its own instruction writes it, and every code of that
instruction names one of the three modes. What a host writes is clamped or
refused, unless it writes straight to the register file.
-/
namespace Z80

variable {σ δ : Type}

/-- A mode that the instruction sets exists. -/
def Instr.namesMode : Instr → Bool
  | .im mode => mode.toNat ≤ 2
  | _ => true

/-- What the instruction leaves as the interrupt mode. -/
def Instr.onMode (i : Instr) (mode : Byte) : Byte :=
  match i with
  | .im new => new
  | _ => mode

theorem Instr.onMode_le {i : Instr} (hi : i.namesMode) {mode : Byte} (h : mode.toNat ≤ 2) :
    (i.onMode mode).toNat ≤ 2 := by
  cases i with
  | im new => exact of_decide_eq_true hi
  | _ => exact h

/-- The instruction that sets the mode stands on the extended page. -/
theorem Instr.namesMode_of_page {i : Instr} (h : i.page ≠ .extended) : i.namesMode := by
  cases i with
  | im _ => exact absurd rfl h
  | _ => rfl

theorem Form.namesMode_ofExtended (first second op : Byte) :
    ((ofExtended op).fill first second).namesMode := by
  simp only [ofExtended, extendedCore, extendedBlock]
  repeat' split
  all_goals rfl

namespace Registers

theorem im_blind : Blind im :=
  fun _ _ _ _ _ => rfl

theorem im_of_system {r s : Registers} (h : r.system = s.system) : r.im = s.im := by
  change r.system.im = s.system.im
  rw [h]

theorem im_leaveHalt (r : Registers) : r.leaveHalt.im = r.im := by
  simp only [leaveHalt]
  split <;> rfl

theorem im_afterCountdown (r : Registers) (c : Counter) (addr : Word) (n : Nat) :
    (r.afterCountdown c addr n).im = r.im := by
  cases c <;> rfl

end Registers

namespace Exec

open Registers (im im_blind)

section

variable [Bus σ] (m : Machine σ δ)

theorem fetchForm_fill (form : Form) :
    ∃ first second, (fetchForm form m).1 = form.fill first second := by
  cases form with
  | fixed i => exact ⟨0, 0, rfl⟩
  | byte make => exact ⟨_, 0, rfl⟩
  | word make => exact ⟨_, _, rfl⟩

theorem fetchIndexed_namesMode (p : Pointer) : (fetchIndexed p m).1.instr.namesMode := by
  simp only [fetchIndexed, bind_apply]
  cases hop : Opcode.decode p (peekOpcode m).1 with
  | index q => rfl
  | instr form =>
      obtain ⟨first, second, hform⟩ := fetchForm_fill (passOpcode (peekOpcode m).2).2 form
      simp only [bind_apply, pure_apply, hform]
      have hpage := Form.page_decode first second hop
      exact Instr.namesMode_of_page (by rw [hpage]; exact Page.noConfusion)
  | bits => rfl
  | extended =>
      simp only [bind_apply, pure_apply]
      generalize hsecond : fetchOpcode (passOpcode (peekOpcode m).2).2 = second
      obtain ⟨a, b, hform⟩ := fetchForm_fill second.2 (.ofExtended second.1)
      rw [hform]
      exact Form.namesMode_ofExtended a b _

theorem fetch_namesMode : (fetch m).1.instr.namesMode := by
  simp only [fetch, bind_apply]
  cases hop : Opcode.decode .hl (fetchOpcode m).1 with
  | index p => exact fetchIndexed_namesMode _ p
  | instr form =>
      obtain ⟨first, second, hform⟩ := fetchForm_fill (fetchOpcode m).2 form
      simp only [bind_apply, pure_apply, hform]
      have hpage := Form.page_decode first second hop
      exact Instr.namesMode_of_page (by rw [hpage]; exact Page.noConfusion)
  | bits =>
      simp only [bind_apply, pure_apply]
      exact Instr.namesMode_of_page (by rw [Instr.page_ofBits]; exact Page.noConfusion)
  | extended =>
      simp only [bind_apply, pure_apply]
      generalize hsecond : fetchOpcode (fetchOpcode m).2 = second
      obtain ⟨a, b, hform⟩ := fetchForm_fill second.2 (.ofExtended second.1)
      rw [hform]
      exact Form.namesMode_ofExtended a b _

theorem accelerate_im (op : Operation) (remaining : Nat) :
    (accelerate op remaining m).2.cpu.regs.im = m.cpu.regs.im :=
  keeps_accelerate (fun _ _ _ _ => rfl) Registers.im_afterCountdown op remaining m

theorem takeNmi_im : (takeNmi m).2.cpu.regs.im = m.cpu.regs.im := by
  have henter := Keeps.enter (σ := σ) (δ := δ) im_blind.placeless nmiEntry (m.onCpu Cpu.acceptNmi)
  exact henter.trans (Registers.im_leaveHalt m.cpu.regs)

variable [Peripheral δ]

theorem takeIrq_im : (takeIrq m).2.cpu.regs.im = m.cpu.regs.im := by
  obtain ⟨mode, data, n, hcpu, henter⟩ := takeIrq_enters m
  rw [henter, Keeps.enterMode im_blind.placeless mode data n, hcpu, ← Registers.im_leaveHalt m.cpu.regs]
  rfl

theorem execute_im (i : Instr) : (execute i m).2.cpu.regs.im = i.onMode m.cpu.regs.im := by
  cases hi : i.isSystem with
  | false =>
      have hkeep := Registers.im_of_system (keeps_execute hi m)
      cases i with
      | im _ => cases hi
      | _ => exact hkeep
  | true =>
      cases i with
      | ldSystem dst => cases dst <;> rfl
      | exAF | exx | halt | di | ei | im _ => rfl
      | retn | reti =>
          have hret := Registers.im_of_system (Registers.system_of_beside (keeps_ret m))
          exact hret
      | _ => cases hi

theorem step_im : (step m).2.cpu.regs.im = (step m).1.1.instr.onMode m.cpu.regs.im := by
  have hfetch := Keeps.fetch im_blind (m.onRegs Registers.start)
  calc (step m).2.cpu.regs.im
      = (execute (step m).1.1.instr (fetch (m.onRegs Registers.start)).2).2.cpu.regs.im := rfl
    _ = (step m).1.1.instr.onMode (fetch (m.onRegs Registers.start)).2.cpu.regs.im :=
        execute_im ..
    _ = (step m).1.1.instr.onMode m.cpu.regs.im := by
        rw [hfetch]
        rfl

theorem advance_im {m : Machine σ δ} (h : m.cpu.regs.im.toNat ≤ 2) (remaining : Nat) :
    (advance remaining m).2.cpu.regs.im.toNat ≤ 2 := by
  cases hboundary : m.cpu.boundary with
  | nmi =>
      rw [advance_nmi remaining hboundary, takeNmi_im]
      exact h
  | irq =>
      rw [advance_irq remaining hboundary, takeIrq_im]
      exact h
  | free =>
      rw [advance_free remaining hboundary]
      split
      · exact h
      · rw [stepAndSkip_apply, accelerate_im, step_im]
        exact Instr.onMode_le (fetch_namesMode _) h

end

end Exec

theorem Machine.runFor_im [Bus σ] [Peripheral δ] (remaining : Nat) {m : Machine σ δ}
    (h : m.cpu.regs.im.toNat ≤ 2) : (m.runFor remaining).cpu.regs.im.toNat ≤ 2 :=
  runFor_invariant (P := fun m => m.cpu.regs.im.toNat ≤ 2)
    (fun remaining _ h => Exec.advance_im h remaining) remaining h

/-- The request writes straight to the register file. -/
def Request.isRaw : Request δ → Bool
  | .modifyRegs _ => true
  | _ => false

namespace Cpu

variable [Peripheral δ]

omit [Peripheral δ] in
theorem clampMode_le (b : Byte) : (clampMode b).toNat ≤ 2 := by
  simp only [clampMode]
  split
  · assumption
  · exact Nat.le_refl 2

theorem setRegister_im {cpu : Cpu δ} (h : cpu.regs.im.toNat ≤ 2) (reg : RegisterName) (v : Word) :
    (cpu.setRegister reg v).regs.im.toNat ≤ 2 := by
  cases reg with
  | im => exact clampMode_le v.low
  | _ => exact h

theorem serve_im {cpu next : Cpu δ} {r : Request δ} (h : cpu.regs.im.toNat ≤ 2)
    (hr : r.isRaw = false) (hserve : (cpu.serve r).2 = next) : next.regs.im.toNat ≤ 2 := by
  subst hserve
  cases r with
  | modifyRegs _ => cases hr
  | setContext ctx =>
      exact takeContext_keeps (P := fun cpu => cpu.regs.im.toNat ≤ 2) h
        (fun _ haccepts => haccepts.mode) ctx
  | importImage bytes =>
      exact takeImage_keeps (P := fun cpu => cpu.regs.im.toNat ≤ 2) h
        (fun _ haccepts => haccepts.mode) bytes
  | setRegister reg v => exact setRegister_im h reg v
  | reset | resetWith _ => exact Nat.zero_le 2
  | _ => exact h

theorem Reachable.im_le {cpu : Cpu δ} (h : cpu.Reachable fun r => r.isRaw = false) :
    cpu.regs.im.toNat ≤ 2 := by
  induction h with
  | new config => exact Nat.zero_le 2
  | run bus budget _ ih => exact Machine.runFor_im budget.toNat ih
  | serve _ hr hserve ih => exact serve_im ih hr hserve
  | exchange _ _ _ _ ih _ => exact ih

end Cpu
end Z80
