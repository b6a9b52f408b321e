import Z80.Interrupt
import Z80.Accelerate

/-!
Running for a number of T-states. The run goes from boundary to boundary
until the budget is used up; the last instruction may go beyond it. Each
boundary takes an interrupt, burns the rest of the run in a halt, or runs an
instruction, and costs at least four T-states, so every run ends.
-/
namespace Z80

namespace Exec

variable {σ δ : Type}

/-- A halted processor refreshes memory in units of four T-states until the
run is over. -/
def burnHalt (remaining : Nat) : Exec σ δ Nat := do
  let units := (remaining + 3) / Timing.haltUnit
  modifyRegs (Registers.refresh units)
  return units * Timing.haltUnit

variable [Bus σ] [Peripheral δ]

/-- An instruction, and the rounds of a loop that it allows to skip. -/
def stepAndSkip (remaining : Nat) : Exec σ δ Nat := do
  let (op, cost) ← step
  return cost + (← accelerate op (remaining - cost))

/-- From one boundary to the next. Gives the T-states that went by. -/
def advance (remaining : Nat) : Exec σ δ Nat := do
  match (← cpu).boundary with
  | .nmi => takeNmi
  | .irq => takeIrq
  | .free =>
    modifyCpu fun cpu => { cpu with eiDelay := false }
    if (← regs).halted then
      burnHalt remaining
    else
      stepAndSkip remaining

omit [Bus σ] [Peripheral δ] in
theorem four_le_burnHalt {remaining : Nat} (h : 0 < remaining) (m : Machine σ δ) :
    4 ≤ (burnHalt remaining m).1 := by
  simp only [burnHalt, bind_apply, pure_apply, Timing.haltUnit]
  omega

omit [Peripheral δ] in
theorem four_le_enterMode (mode : Mode) (data : BitVec 32) (m : Machine σ δ) :
    4 ≤ (enterMode mode data m).1 := by
  cases mode with
  | direct =>
      simp only [enterMode]
      cases Mode0.ofData data with
      | call _ => exact Instr.four_le_cost (.call 0)
      | jump _ => exact Instr.four_le_cost (.jp 0)
      | restart _ => exact Instr.four_le_cost (.rst 0)
  | fixed => exact Instr.four_le_cost (.rst 0)
  | vectored => exact Instr.four_le_cost (.call 0)

theorem four_le_takeIrq (m : Machine σ δ) : 4 ≤ (takeIrq m).1 := by
  simp only [takeIrq, bind_apply, pure_apply]
  exact Nat.le_add_right_of_le (four_le_enterMode ..)

theorem four_le_stepAndSkip (remaining : Nat) (m : Machine σ δ) :
    4 ≤ (stepAndSkip remaining m).1 := by
  simp only [stepAndSkip, step, bind_apply, pure_apply]
  exact Nat.le_add_right_of_le (Operation.four_le_cost ..)

theorem four_le_advance {remaining : Nat} (h : 0 < remaining) (m : Machine σ δ) :
    4 ≤ (advance remaining m).1 := by
  simp only [advance, bind_apply]
  cases (cpu m).1.boundary with
  | nmi => exact Nat.le_of_ble_eq_true rfl
  | irq => exact four_le_takeIrq _
  | free =>
      simp only [bind_apply]
      generalize (regs _).1.halted = halted
      cases halted with
      | true => exact four_le_burnHalt h _
      | false => exact four_le_stepAndSkip ..

end Exec

namespace Machine

variable {σ δ : Type} [Bus σ] [Peripheral δ]

/-- Lets T-states go by on the processor's count. -/
def elapse (n : Nat) : Machine σ δ → Machine σ δ
  | ⟨cpu, bus⟩ => ⟨{ cpu with total := cpu.total + n }, bus⟩

/-- From boundary to boundary until the T-states are used up. -/
def runFor (remaining : Nat) (m : Machine σ δ) : Machine σ δ :=
  if h : 0 < remaining then
    have := Exec.four_le_advance h m
    let r := Exec.advance remaining m
    runFor (remaining - r.1) (r.2.elapse r.1)
  else
    m
termination_by remaining
decreasing_by omega

/-- Runs for a budget of T-states and gives those that went by, or the
largest number of 32 bits if there are more. -/
def run (budget : BitVec 32) (m : Machine σ δ) : BitVec 32 × Machine σ δ :=
  let start := m.cpu.total
  let m := m.runFor budget.toNat
  (BitVec.ofNat 32 (min (m.cpu.total - start) 0xFFFFFFFF), m)

end Machine
end Z80
