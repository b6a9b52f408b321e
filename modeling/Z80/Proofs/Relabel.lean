import Z80.Run
import Z80.Proofs.Frame

/-!
The configuration and the count of T-states are labels on the processor. No
round of a run looks at the count, and only the accelerator looks at the
configuration, so a run does the same under other labels.
-/
namespace Z80

variable {σ δ α : Type}

/-- The processor with other labels. -/
def Cpu.relabel (c : Config → Config) (g : Nat → Nat) (cpu : Cpu δ) : Cpu δ :=
  { cpu with config := c cpu.config, total := g cpu.total }

theorem Cpu.relabel_outer (c : Config → Config) (g : Nat → Nat) :
    Outer (relabel c g : Cpu δ → Cpu δ) where
  regs _ := rfl
  modifyRegs _ _ := rfl

namespace Exec

variable {φ : Cpu δ → Cpu δ}

section

variable [Bus σ] (h : Cpu.Outer φ)
include h

theorem Commutes.enter (addr : Word) : Commutes φ (enter addr : Exec σ δ Unit) :=
  .bind (.regs h) fun _ => .bind (.push h _) fun _ => .jump h _

theorem Commutes.enterMode (mode : Mode) (data : BitVec 32) :
    Commutes φ (enterMode mode data : Exec σ δ Nat) := by
  cases mode with
  | direct =>
      simp only [Exec.enterMode]
      cases Mode0.ofData data with
      | call addr | restart addr => exact .bind (.enter h addr) fun _ => .pure _
      | jump addr => exact .bind (.jump h addr) fun _ => .pure _
  | fixed => exact .bind (.enter h _) fun _ => .pure _
  | vectored =>
      exact .bind (.regs h) fun _ => .bind (.push h _) fun _ => .bind (.regs h) fun _ =>
        .bind (.read16 _) fun _ => .bind (.jump h _) fun _ => .pure _

omit [Bus σ] in
theorem Commutes.skip (addr : Word) (remaining round refreshes : Nat) (enable : Bool) :
    Commutes φ (skipIdle.skip addr remaining round refreshes enable : Exec σ δ Nat) :=
  .ite (.pure _) (.bind (.modifyRegs h _) fun _ => .pure _)

theorem Commutes.skipIdle (addr : Word) (cost remaining : Nat) :
    Commutes φ (skipIdle addr cost remaining : Exec σ δ Nat) :=
  .bind (.regs h) fun _ => .ite (.skip h _ _ _ _ _) <| .ite
    (.bind (.onBus _) fun _ => .ite (.skip h _ _ _ _ _) <| .ite (.skip h _ _ _ _ _) (.pure _))
    (.pure _)

omit h in
theorem Commutes.countdownJump (addr pc : Word) :
    Commutes φ (countdownJump addr pc : Exec σ δ (Option Nat)) := by
  apply Commutes.bind (.onBus _)
  intro v
  split
  · exact .bind (.onBus _) fun _ => .ite (.pure _) (.pure _)
  · exact .bind (.read16 _) fun _ => .ite (.pure _) (.pure _)
  · exact .pure _

theorem Commutes.skipCountdown (c : Counter) (remaining : Nat) :
    Commutes φ (skipCountdown c remaining : Exec σ δ Nat) := by
  refine .bind (.regs h) fun _ => .ite (.pure _) <| .bind (.onBus _) fun _ =>
    .bind (.onBus _) fun _ => .ite (.pure _) <| .bind (.countdownJump _ _) fun jump => ?_
  cases jump with
  | none => exact .pure _
  | some _ => exact .ite (.pure _) (.bind (.modifyRegs h _) fun _ => .pure _)

theorem Commutes.accelerate (op : Operation) (remaining : Nat)
    (hc : ∀ cpu, (φ cpu).canAccelerate remaining = cpu.canAccelerate remaining) :
    Commutes φ (accelerate op remaining : Exec σ δ Nat) := by
  refine .cpu (fun cpu => ?_) fun cpu => .ite (.ite (.skipIdle h _ _ _) ?_) (.pure _)
  · rw [hc, h.regs]
  · cases Counter.ofInstr? op.instr with
    | some c => exact .skipCountdown h c remaining
    | none => exact .pure _

end

variable [Bus σ] [Peripheral δ] (c : Config → Config) (g : Nat → Nat)

theorem Commutes.step : Commutes (Cpu.relabel c g) (step : Exec σ δ (Operation × Nat)) :=
  have h := Cpu.relabel_outer c g
  .bind (.modifyRegs h _) fun _ => .bind (.fetch h) fun op =>
    .bind (.execute h op.instr (fun _ _ => rfl) (fun _ _ => rfl)) fun _ =>
      .bind (.modifyCpu fun _ => rfl) fun _ => .pure _

omit [Peripheral δ] in
theorem Commutes.takeNmi : Commutes (Cpu.relabel c g) (takeNmi : Exec σ δ Nat) :=
  .bind (.modifyCpu fun _ => rfl) fun _ => .bind (.enter (Cpu.relabel_outer c g) _) fun _ => .pure _

theorem Commutes.acknowledge :
    Commutes (Cpu.relabel c g) (acknowledge : Exec σ δ (BitVec 32)) := by
  refine .cpu (fun _ => rfl) ?_
  intro cpu
  cases cpu.chain with
  | some chain => exact .ite (.onBus _) (.bind (.modifyCpu fun _ => rfl) fun _ => .pure _)
  | none => exact .onBus _

theorem Commutes.takeIrq : Commutes (Cpu.relabel c g) (takeIrq : Exec σ δ Nat) :=
  have h := Cpu.relabel_outer c g
  .bind (.modifyCpu fun _ => rfl) fun _ => .bind (.acknowledge c g) fun _ =>
    .bind (.regs h) fun _ => .bind (.enterMode h _ _) fun _ => .pure _

omit [Bus σ] [Peripheral δ] in
theorem Commutes.burnHalt (remaining : Nat) :
    Commutes (Cpu.relabel c g) (burnHalt remaining : Exec σ δ Nat) :=
  .bind (.modifyRegs (Cpu.relabel_outer c g) _) fun _ => .pure _

theorem Commutes.advance (remaining : Nat) :
    Commutes (Cpu.relabel id g) (advance remaining : Exec σ δ Nat) := by
  have h := Cpu.relabel_outer (δ := δ) id g
  refine .cpu (fun _ => rfl) ?_
  intro cpu
  cases cpu.boundary with
  | nmi => exact .takeNmi id g
  | irq => exact .takeIrq id g
  | free =>
      exact .bind (.modifyCpu fun _ => rfl) fun _ => .bind (.regs h) fun _ =>
        .ite (.burnHalt id g remaining) <| .bind (.step id g) fun _ =>
          .bind (.accelerate h _ _ fun _ => rfl) fun _ => .pure _

end Exec
end Z80
