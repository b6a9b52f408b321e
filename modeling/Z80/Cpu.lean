import Z80.Registers
import Z80.RegisterName
import Z80.LineState
import Z80.Daisy.Chain

/-!
The state of the processor: its registers, the latches between instructions,
the two interrupt lines and the daisy chain, if one is attached.

Two quantities of a run are not part of the state. The T-states left of it
(`icount`) are set anew where a run begins, and are an argument of the run. The
flags `q` from before the current instruction (`prev_q`) are a copy made where an
instruction begins; here `q` itself keeps them until the instruction retires.
Nothing reads either of the two between instructions.
-/
namespace Z80

structure Config where
  /-- Run recognised idle loops in one go. This changes the time a run takes
  on the host, and nothing else. -/
  loopAcceleration : Bool := true
deriving DecidableEq, Inhabited

structure Cpu (δ : Type) where
  regs : Registers := {}
  config : Config := {}
  /-- T-states of all runs so far. -/
  total : Nat := 0
  irqLine : LineState := .clear
  nmiLine : LineState := .clear
  /-- An edge of the NMI line that was not served yet. -/
  nmiPending : Bool := false
  /-- The last instruction was `EI`, so no interrupt is taken before the
  next one. -/
  eiDelay : Bool := false
  /-- The last instruction was `LD A,I` or `LD A,R`. -/
  afterLdAIR : Bool := false
  /-- The flags, if the last instruction wrote them, else all clear. -/
  q : Flags := {}
  chain : Option (DaisyChain δ) := none

namespace Cpu

variable {δ : Type}

/-- A request for a maskable interrupt is waiting. On a chain with devices
the chain decides; otherwise the line does. -/
def irqRequested (cpu : Cpu δ) : Bool :=
  match cpu.chain with
  | some chain => if chain.isEmpty then cpu.irqLine.isActive else chain.request.isSome
  | none => cpu.irqLine.isActive

/-- An interrupt could be taken after the current instruction. -/
def interruptPossible (cpu : Cpu δ) : Bool :=
  cpu.nmiPending || (cpu.regs.iff1 && cpu.irqRequested)

def modifyRegs (g : Registers → Registers) (cpu : Cpu δ) : Cpu δ :=
  { cpu with regs := g cpu.regs }

/-- The NMI line is sensitive to its edge: leaving `clear` latches a request
that stays until it is served. -/
def setNmiLine (s : LineState) (cpu : Cpu δ) : Cpu δ :=
  { cpu with
    nmiLine := s
    nmiPending := cpu.nmiPending || (cpu.nmiLine == .clear && s.isActive) }

/-- Changes one device of the attached chain, without a poll. -/
def modifyDevice (i : Nat) (g : δ → δ) (cpu : Cpu δ) : Cpu δ :=
  { cpu with chain := cpu.chain.map (DaisyChain.modifyDevice i g) }

/-- The latched state of a slot, 0 without a chain. -/
def slotState (slot : Fin 4) (cpu : Cpu δ) : Byte :=
  match cpu.chain with
  | some chain => chain.states.get slot
  | none => 0

def setSlotState (slot : Fin 4) (v : Byte) (cpu : Cpu δ) : Cpu δ :=
  { cpu with chain := cpu.chain.map (DaisyChain.setState slot v) }

variable [Peripheral δ]

/-- An active interrupt line makes the chain poll its devices. -/
def setIrqLine (s : LineState) (cpu : Cpu δ) : Cpu δ :=
  { cpu with
    irqLine := s
    chain := if s.isActive then cpu.chain.map DaisyChain.arbitrate else cpu.chain }

/-- The reset state with another chain, whose devices are reset as well. The
configuration and the count of T-states stay. -/
def resetWith (chain : Option (DaisyChain δ)) (cpu : Cpu δ) : Cpu δ :=
  { config := cpu.config
    total := cpu.total
    chain := chain.map DaisyChain.reset }

def reset (cpu : Cpu δ) : Cpu δ :=
  cpu.resetWith cpu.chain

end Cpu
end Z80
