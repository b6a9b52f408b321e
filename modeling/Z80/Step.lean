import Z80.Fetch
import Z80.Execute

/-!
One instruction, from the program counter to the latches that the next one
sees.
-/
namespace Z80

/-- Records which instruction came last. -/
def Cpu.retire {δ : Type} (i : Instr) (cpu : Cpu δ) : Cpu δ :=
  { cpu with
    q := if i.setsFlags then cpu.regs.f else {}
    afterLdAIR := i.readsSystem
    eiDelay := i == .ei }

namespace Exec

variable {σ δ : Type} [Bus σ] [Peripheral δ]

/-- Runs one instruction. Gives the operation and its T-states. -/
def step : Exec σ δ (Operation × Nat) := do
  modifyRegs fun r => { r with prepc := r.pc }
  let op ← fetch
  let taken ← execute op.instr
  modifyCpu (Cpu.retire op.instr)
  return (op, op.cost taken)

end Exec
end Z80
