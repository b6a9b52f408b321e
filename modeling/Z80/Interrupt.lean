import Z80.Timing
import Z80.Machine

/-!
The boundary between two instructions: which interrupt is taken there, and
its entry. A non-maskable request goes first, and nothing is taken right
after an `EI`.
-/
namespace Z80

inductive Boundary
  | nmi
  | irq
  | free
deriving DecidableEq

def Cpu.boundary {δ : Type} (cpu : Cpu δ) : Boundary :=
  if cpu.eiDelay then .free
  else if cpu.nmiPending then .nmi
  else if cpu.regs.iff1 && cpu.irqRequested then .irq
  else .free

namespace Registers

/-- A halted processor goes on after its `HALT`. -/
def leaveHalt (r : Registers) : Registers :=
  if r.halted then { r with halted := false, pc := r.pc + 1 } else r

end Registers

/-- Where a non-maskable interrupt is served. -/
def nmiEntry : Word := 0x0066

/-- Where interrupt mode 1 is served. -/
def mode1Entry : Word := 0x0038

/-- The interrupt modes. A number that names none of them acts as mode 0. -/
inductive Mode
  | direct
  | fixed
  | vectored
deriving DecidableEq

def Mode.ofByte (b : Byte) : Mode :=
  if b = 2 then .vectored else if b = 1 then .fixed else .direct

/-- What the data of an acknowledge asks for in interrupt mode 0: one of two
instructions with an address, or else a restart. -/
inductive Mode0
  | call (addr : Word)
  | jump (addr : Word)
  | restart (addr : Word)
deriving DecidableEq

def Mode0.ofData (data : BitVec 32) : Mode0 :=
  let addr := data.setWidth 16
  let code : Byte := data.extractLsb' 16 8
  if code = 0xCD then .call addr
  else if code = 0xC3 then .jump addr
  else .restart (addr &&& 0x0038)

namespace Cpu

variable {δ : Type}

/-- The processor after it has accepted a non-maskable interrupt, before it
saves the program counter. -/
def acceptNmi (cpu : Cpu δ) : Cpu δ :=
  { cpu with
    nmiPending := false
    nmiLine := cpu.nmiLine.taken
    afterLdAIR := false
    regs := { Registers.refresh 1 cpu.regs.leaveHalt with iff1 := false } }

/-- The same for a maskable interrupt. Right after `LD A,I` or `LD A,R` the
parity flag is lost. -/
def acceptIrq (cpu : Cpu δ) : Cpu δ :=
  let r := Registers.refresh 1 cpu.regs.leaveHalt
  { cpu with
    irqLine := cpu.irqLine.taken
    afterLdAIR := false
    regs :=
      { r with
        f := if cpu.afterLdAIR then { r.f with p := false } else r.f
        iff1 := false
        iff2 := false } }

end Cpu

namespace Exec

variable {σ δ : Type} [Bus σ]

/-- Saves the program counter and goes to a service routine. -/
def enter (addr : Word) : Exec σ δ Unit := do
  push (← regs).pc
  jump addr

def takeNmi : Exec σ δ Nat := do
  modifyCpu Cpu.acceptNmi
  enter nmiEntry
  return Timing.nmiEntry

/-- The data that answers an acknowledge. On a chain with devices it is the
vector of the requesting device; otherwise the bus gives it. -/
def acknowledge [Peripheral δ] : Exec σ δ (BitVec 32) := do
  match (← cpu).chain with
  | some chain =>
    if chain.isEmpty then onBus Bus.irqAck
    else
      let (vector, chain) := chain.acknowledge
      modifyCpu fun cpu => { cpu with chain := some chain }
      return (vector.getD 0xFF).setWidth 32
  | none => onBus Bus.irqAck

/-- Entry of a maskable interrupt with its acknowledge data. Gives the cost
of the instruction that the entry amounts to. -/
def enterMode (mode : Mode) (data : BitVec 32) : Exec σ δ Nat := do
  match mode with
  | .direct =>
    match Mode0.ofData data with
    | .call addr =>
      enter addr
      return (Instr.call 0).cost
    | .jump addr =>
      jump addr
      return (Instr.jp 0).cost
    | .restart addr =>
      enter addr
      return (Instr.rst 0).cost
  | .fixed =>
    enter mode1Entry
    return (Instr.rst 0).cost
  | .vectored =>
    push (← regs).pc
    jump (← read16 (Word.ofBytes (← regs).i (data.setWidth 8)))
    return (Instr.call 0).cost

def takeIrq [Peripheral δ] : Exec σ δ Nat := do
  modifyCpu Cpu.acceptIrq
  let data ← acknowledge
  return (← enterMode (Mode.ofByte (← regs).im) data) + Timing.irqLatency

end Exec
end Z80
