import Z80.Proofs.Acceleration
import Z80.Proofs.Fetches
import Z80.Proofs.System

/-!
The interrupt flip-flops and the halt, as far as they are changed by the
processor itself. Few instructions write them, an interrupt clears them, and
the rounds of a loop that are skipped leave them as they are.
-/
namespace Z80

variable {σ δ : Type}

/-- The interrupt flip-flops and the halt. -/
structure Latches where
  iff1 : Bool
  iff2 : Bool
  halted : Bool
deriving DecidableEq

/-- Interrupts that are enabled are so in both flip-flops. -/
def Latches.Sound (l : Latches) : Prop :=
  l.iff1 → l.iff2

def Registers.latches (r : Registers) : Latches where
  iff1 := r.iff1
  iff2 := r.iff2
  halted := r.halted

/-- What an instruction does to the latches. -/
def Instr.onLatches (i : Instr) (l : Latches) : Latches :=
  match i with
  | .retn | .reti => { l with iff1 := l.iff2 }
  | .halt => { l with halted := true }
  | .di => { l with iff1 := false, iff2 := false }
  | .ei => { l with iff1 := true, iff2 := true }
  | _ => l

namespace Registers

theorem latches_blind : Blind latches :=
  fun _ _ _ _ _ => rfl

theorem f_blind : Blind f :=
  fun _ _ _ _ _ => rfl

theorem latches_of_system {r s : Registers} (h : r.system = s.system) :
    r.latches = s.latches := by
  change r.system.latches = s.system.latches
  rw [h]

theorem latches_leaveHalt (r : Registers) :
    r.leaveHalt.latches = { r.latches with halted := false } := by
  simp only [leaveHalt]
  split
  · rfl
  · rename_i h
    simp only [latches, h]

theorem f_leaveHalt (r : Registers) : r.leaveHalt.f = r.f := by
  simp only [leaveHalt]
  split <;> rfl

end Registers

theorem Instr.onLatches_ordinary {i : Instr} (h : i.isSystem = false) (l : Latches) :
    i.onLatches l = l := by
  cases i with
  | ldSystem _ | exAF | exx | retn | reti | halt | di | ei | im _ => cases h
  | _ => rfl

theorem Latches.Sound.onLatches {l : Latches} (h : l.Sound) (i : Instr) :
    (i.onLatches l).Sound := by
  cases i with
  | retn | reti | di | ei => exact id
  | _ => exact h

/-- The accelerator knows only instructions that write no flags. -/
theorem Instr.setsFlags_of_closesLoop {i : Instr} (h : i.closesLoop) : i.setsFlags = false := by
  cases i with
  | jp _ | jr _ | dec16 _ => rfl
  | _ => cases h

namespace Exec

open Registers (latches latches_blind f_blind)

section

variable [Bus σ] [Peripheral δ]

theorem execute_latches (i : Instr) (m : Machine σ δ) :
    (execute i m).2.cpu.regs.latches = i.onLatches m.cpu.regs.latches := by
  cases hi : i.isSystem with
  | false =>
      rw [Instr.onLatches_ordinary hi]
      exact Registers.latches_of_system (keeps_execute hi m)
  | true =>
      cases i with
      | ldSystem dst => cases dst <;> rfl
      | exAF | exx | halt | di | ei | im _ => rfl
      | retn | reti =>
          have hret := Registers.latches_of_system (Registers.system_of_beside (keeps_ret m))
          exact congrArg (fun l : Latches => { l with iff1 := l.iff2 }) hret
      | _ => cases hi

theorem step_latches (m : Machine σ δ) :
    (step m).2.cpu.regs.latches = (step m).1.1.instr.onLatches m.cpu.regs.latches := by
  have hfetch := Keeps.fetch latches_blind (m.onRegs Registers.start)
  calc (step m).2.cpu.regs.latches
      = (execute (step m).1.1.instr (fetch (m.onRegs Registers.start)).2).2.cpu.regs.latches := rfl
    _ = (step m).1.1.instr.onLatches (fetch (m.onRegs Registers.start)).2.cpu.regs.latches :=
        execute_latches ..
    _ = (step m).1.1.instr.onLatches m.cpu.regs.latches := by
        rw [hfetch]
        rfl

/-- After an instruction `q` holds the flags that it wrote, if it wrote any. -/
theorem step_q (m : Machine σ δ) :
    (step m).2.cpu.q = if (step m).1.1.instr.setsFlags then (step m).2.cpu.regs.f else {} := rfl

end

/-! The accelerator. It may only enable interrupts that are enabled. -/

section

theorem skip_latches {enable : Bool} {m : Machine σ δ} (h : enable → m.cpu.regs.iff2)
    (addr : Word) (remaining round refreshes : Nat) :
    (skipIdle.skip addr remaining round refreshes enable m).2.cpu.regs.latches =
      m.cpu.regs.latches := by
  rw [skip_apply]
  split
  · rfl
  · have hiff2 : (m.cpu.regs.iff2 || enable) = m.cpu.regs.iff2 := by
      cases enable with
      | false => exact Bool.or_false _
      | true => rw [h rfl, Bool.true_or]
    simp only [Machine.onRegs_regs, Registers.afterIdle, latches, hiff2, Registers.refresh]

variable [Bus σ]

theorem skipIdle_latches {m : Machine σ δ} (h : m.cpu.regs.latches.Sound)
    (addr : Word) (cost remaining : Nat) :
    (skipIdle addr cost remaining m).2.cpu.regs.latches = m.cpu.regs.latches := by
  -- Looking at the filler may change the bus.
  have hskip (bus : σ) (round refreshes : Nat) :=
    skip_latches (m := Machine.mk m.cpu bus) (absurd · Bool.false_ne_true) addr remaining round
      refreshes
  simp only [skipIdle, regs_bind, ite_apply]
  split
  · exact hskip _ _ _
  · split
    · simp only [bind_apply, ite_apply]
      split
      · exact hskip _ _ _
      · split
        · rename_i hei
          exact skip_latches (m := (read m.cpu.regs.pc m).2) (fun _ => h hei.2) ..
        · rfl
    · rfl

theorem keeps_skipIdle {β : Type} {f : Registers → β}
    (hf : ∀ (r : Registers) addr n enable, f (r.afterIdle addr n enable) = f r)
    (addr : Word) (cost remaining : Nat) :
    Keeps f (skipIdle addr cost remaining : Exec σ δ Nat) := by
  have hskip (round refreshes : Nat) (enable : Bool) :
      Keeps f (skipIdle.skip addr remaining round refreshes enable : Exec σ δ Nat) :=
    .ite (.pure _) (.bind (.modifyRegs fun r => hf r _ _ _) fun _ => .pure _)
  exact .bind .regs fun _ => .ite (hskip _ _ _) <| .ite (.bind (.onBus _) fun _ =>
    .ite (hskip _ _ _) (.ite (hskip _ _ _) (.pure _))) (.pure _)

theorem keeps_countdownJump {β : Type} {f : Registers → β} (addr pc : Word) :
    Keeps f (countdownJump addr pc : Exec σ δ (Option Nat)) := by
  apply Keeps.bind (.onBus _)
  intro v
  split
  · exact .bind (.onBus _) fun _ => .ite (.pure _) (.pure _)
  · exact .bind (.read16 _) fun _ => .ite (.pure _) (.pure _)
  · exact .pure _

theorem keeps_skipCountdown {β : Type} {f : Registers → β}
    (hf : ∀ (r : Registers) c addr n, f (r.afterCountdown c addr n) = f r) (c : Counter)
    (remaining : Nat) : Keeps f (skipCountdown c remaining : Exec σ δ Nat) := by
  refine .bind .regs fun _ => .ite (.pure _) <| .bind (.onBus _) fun _ =>
    .bind (.onBus _) fun _ => .ite (.pure _) <| .bind ?_ fun jump => ?_
  · exact keeps_countdownJump _ _
  · cases jump with
    | none => exact .pure _
    | some _ => exact .ite (.pure _) (.bind (.modifyRegs fun r => hf r c _ _) fun _ => .pure _)

/-- What neither kind of loop writes is kept when rounds are skipped. -/
theorem keeps_accelerate {β : Type} {f : Registers → β}
    (hidle : ∀ (r : Registers) addr n enable, f (r.afterIdle addr n enable) = f r)
    (hcountdown : ∀ (r : Registers) c addr n, f (r.afterCountdown c addr n) = f r)
    (op : Operation) (remaining : Nat) : Keeps f (accelerate op remaining : Exec σ δ Nat) := by
  intro m
  rw [accelerate_apply]
  split
  · split
    · exact keeps_skipIdle hidle _ _ _ m
    · cases Counter.ofInstr? op.instr with
      | some c => exact keeps_skipCountdown hcountdown c remaining m
      | none => rfl
  · rfl

theorem latches_afterCountdown (r : Registers) (c : Counter) (addr : Word) (n : Nat) :
    (r.afterCountdown c addr n).latches = r.latches := by
  cases c <;> rfl

theorem accelerate_latches {m : Machine σ δ} (h : m.cpu.regs.latches.Sound)
    (op : Operation) (remaining : Nat) :
    (accelerate op remaining m).2.cpu.regs.latches = m.cpu.regs.latches := by
  rw [accelerate_apply]
  split
  · split
    · exact skipIdle_latches h _ _ _
    · cases Counter.ofInstr? op.instr with
      | some c => exact keeps_skipCountdown latches_afterCountdown c remaining m
      | none => rfl
  · rfl

theorem accelerate_of_not_closesLoop {op : Operation} (h : op.instr.closesLoop = false)
    (remaining : Nat) (m : Machine σ δ) : accelerate op remaining m = (0, m) := by
  simp only [Instr.closesLoop, Bool.or_eq_false_iff, Option.isSome_eq_false_iff,
    Option.isNone_iff_eq_none] at h
  simp only [accelerate_apply, h.1, h.2, Bool.false_eq_true, if_false, ite_self]

variable [Peripheral δ]

theorem stepAndSkip_of_not_closesLoop {m : Machine σ δ}
    (h : (step m).1.1.instr.closesLoop = false) (remaining : Nat) :
    stepAndSkip remaining m = ((step m).1.2, (step m).2) := by
  simp only [stepAndSkip_apply, accelerate_of_not_closesLoop h, Nat.add_zero]

theorem stepAndSkip_latches {m : Machine σ δ} (h : m.cpu.regs.latches.Sound)
    (remaining : Nat) :
    (stepAndSkip remaining m).2.cpu.regs.latches =
      (step m).1.1.instr.onLatches m.cpu.regs.latches := by
  have hstep := step_latches m
  have hsound : (step m).2.cpu.regs.latches.Sound := by
    rw [hstep]
    exact h.onLatches _
  rw [stepAndSkip_apply]
  exact (accelerate_latches hsound _ _).trans hstep

/-- After a round of instructions `q` is clear or holds the flags. -/
theorem stepAndSkip_q (remaining : Nat) (m : Machine σ δ) :
    (stepAndSkip remaining m).2.cpu.q = {} ∨
      (stepAndSkip remaining m).2.cpu.q = (stepAndSkip remaining m).2.cpu.regs.f := by
  have hq : (stepAndSkip remaining m).2.cpu.q = (step m).2.cpu.q := by
    rw [stepAndSkip_frame]
    rfl
  rw [hq, step_q]
  cases hflags : (step m).1.1.instr.setsFlags with
  | false => exact .inl rfl
  | true =>
      have hcloses : (step m).1.1.instr.closesLoop = false := by
        cases hc : (step m).1.1.instr.closesLoop with
        | false => rfl
        | true =>
            rw [Instr.setsFlags_of_closesLoop hc] at hflags
            cases hflags
      rw [stepAndSkip_of_not_closesLoop hcloses]
      exact .inr rfl

end

/-! Interrupts. An entry leaves the registers that it does not save alone. -/

section

variable [Bus σ] (m : Machine σ δ)

theorem takeNmi_latches :
    (takeNmi m).2.cpu.regs.latches =
      { m.cpu.regs.latches with iff1 := false, halted := false } := by
  have henter := Keeps.enter (σ := σ) (δ := δ) latches_blind.placeless nmiEntry (m.onCpu Cpu.acceptNmi)
  have haccept := congrArg (fun l : Latches => { l with iff1 := false })
    (Registers.latches_leaveHalt m.cpu.regs)
  exact henter.trans haccept

theorem takeNmi_f : (takeNmi m).2.cpu.regs.f = m.cpu.regs.f := by
  have henter := Keeps.enter (σ := σ) (δ := δ) f_blind.placeless nmiEntry (m.onCpu Cpu.acceptNmi)
  exact henter.trans (Registers.f_leaveHalt m.cpu.regs)

variable [Peripheral δ]

theorem takeIrq_latches : (takeIrq m).2.cpu.regs.latches = ⟨false, false, false⟩ := by
  obtain ⟨mode, data, n, hcpu, henter⟩ := takeIrq_enters m
  rw [henter, Keeps.enterMode latches_blind.placeless mode data n, hcpu]
  exact congrArg (fun l : Latches => { l with iff1 := false, iff2 := false })
    (Registers.latches_leaveHalt m.cpu.regs)

theorem takeIrq_f :
    (takeIrq m).2.cpu.regs.f =
      if m.cpu.afterLdAIR then { m.cpu.regs.f with p := false } else m.cpu.regs.f := by
  obtain ⟨mode, data, n, hcpu, henter⟩ := takeIrq_enters m
  rw [henter, Keeps.enterMode f_blind.placeless mode data n, hcpu, ← Registers.f_leaveHalt m.cpu.regs]
  rfl

end

end Exec

end Z80
