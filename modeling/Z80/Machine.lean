import Z80.Cpu
import Z80.Instr
import Z80.Bus.Basic

/-!
A processor on its bus, and the small steps that instructions are made of:
reading and writing registers, memory and the I/O space, the stack, and the fetches
at the program counter.
-/
namespace Z80

structure Machine (σ δ : Type) where
  cpu : Cpu δ
  bus : σ

abbrev Exec (σ δ : Type) := StateM (Machine σ δ)

namespace Registers

def reg8 (r : Registers) : Reg8 → Byte
  | .a => r.a
  | .b => r.b
  | .c => r.c
  | .d => r.d
  | .e => r.e
  | .h => r.h
  | .l => r.l
  | .ixh => r.ixh
  | .ixl => r.ixl
  | .iyh => r.iyh
  | .iyl => r.iyl

def setReg8 (dst : Reg8) (v : Byte) (r : Registers) : Registers :=
  match dst with
  | .a => { r with a := v }
  | .b => { r with b := v }
  | .c => { r with c := v }
  | .d => { r with d := v }
  | .e => { r with e := v }
  | .h => { r with h := v }
  | .l => { r with l := v }
  | .ixh => { r with ixh := v }
  | .ixl => { r with ixl := v }
  | .iyh => { r with iyh := v }
  | .iyl => { r with iyl := v }

def reg16 (r : Registers) : Reg16 → Word
  | .af => r.af
  | .bc => r.bc
  | .de => r.de
  | .hl => r.hl
  | .ix => r.ix
  | .iy => r.iy
  | .sp => r.sp

def setReg16 (dst : Reg16) (w : Word) (r : Registers) : Registers :=
  match dst with
  | .af => r.setAF w
  | .bc => r.setBC w
  | .de => r.setDE w
  | .hl => r.setHL w
  | .ix => r.setIX w
  | .iy => r.setIY w
  | .sp => { r with sp := w }

def pointer (r : Registers) (p : Pointer) : Word :=
  r.reg16 p.pair

def setPointer (p : Pointer) (w : Word) (r : Registers) : Registers :=
  r.setReg16 p.pair w

end Registers

namespace Exec

variable {σ δ α β : Type}

theorem bind_apply (x : Exec σ δ α) (g : α → Exec σ δ β) (m : Machine σ δ) :
    (x >>= g) m = g (x m).1 (x m).2 := rfl

theorem pure_apply (v : α) (m : Machine σ δ) : (pure v : Exec σ δ α) m = (v, m) := rfl

theorem ite_apply (c : Prop) [Decidable c] (x y : Exec σ δ α) (m : Machine σ δ) :
    (if c then x else y) m = if c then x m else y m := by
  split <;> rfl

def cpu : Exec σ δ (Cpu δ) :=
  fun m => (m.cpu, m)

def modifyCpu (g : Cpu δ → Cpu δ) : Exec σ δ Unit :=
  fun ⟨cpu, bus⟩ => ((), ⟨g cpu, bus⟩)

def regs : Exec σ δ Registers :=
  fun m => (m.cpu.regs, m)

def modifyRegs (g : Registers → Registers) : Exec σ δ Unit :=
  modifyCpu (Cpu.modifyRegs g)

theorem cpu_bind (g : Cpu δ → Exec σ δ α) (m : Machine σ δ) : (cpu >>= g) m = g m.cpu m := rfl

theorem regs_bind (g : Registers → Exec σ δ α) (m : Machine σ δ) :
    (regs >>= g) m = g m.cpu.regs m := rfl

def setFlags (f : Flags) : Exec σ δ Unit :=
  modifyRegs fun r => { r with f }

/-- Leaves an address in the latch. -/
def latch (w : Word) : Exec σ δ Unit :=
  modifyRegs fun r => { r with wz := w }

/-- Continues at an address, which stays in the latch. -/
def jump (w : Word) : Exec σ δ Unit :=
  modifyRegs fun r => { r with pc := w, wz := w }

/-- An access to the bus, which leaves the processor alone. -/
def onBus (act : StateM σ α) : Exec σ δ α :=
  fun ⟨cpu, bus⟩ =>
    let (v, bus) := act bus
    (v, ⟨cpu, bus⟩)

variable [Bus σ]

def read (a : Word) : Exec σ δ Byte :=
  onBus (Bus.read a)

def write (a : Word) (v : Byte) : Exec σ δ Unit :=
  onBus (Bus.write a v)

def ioRead (a : Word) : Exec σ δ Byte :=
  onBus (Bus.ioRead a)

def ioWrite (a : Word) (v : Byte) : Exec σ δ Unit :=
  onBus (Bus.ioWrite a v)

/-- The low byte comes first. -/
def read16 (a : Word) : Exec σ δ Word := do
  let low ← read a
  let high ← read (a + 1)
  return Word.ofBytes high low

def write16 (a : Word) (w : Word) : Exec σ δ Unit := do
  write a w.low
  write (a + 1) w.high

/-- The high byte goes to the higher address. -/
def push (w : Word) : Exec σ δ Unit := do
  let sp := (← regs).sp
  write (sp - 1) w.high
  write (sp - 2) w.low
  modifyRegs fun r => { r with sp := sp - 2 }

def pop : Exec σ δ Word := do
  let sp := (← regs).sp
  let w ← read16 sp
  modifyRegs fun r => { r with sp := sp + 2 }
  return w

/-- The opcode at the program counter, without a step of the counter. -/
def peekOpcode : Exec σ δ Byte := do
  onBus (Bus.fetchOpcode (← regs).pc)

omit [Bus σ] in
/-- Passes an opcode: one step of the program counter and one refresh. -/
def passOpcode : Exec σ δ Unit :=
  modifyRegs fun r => { Registers.refresh 1 r with pc := r.pc + 1 }

def fetchOpcode : Exec σ δ Byte := do
  let op ← peekOpcode
  passOpcode
  return op

def fetchOperand : Exec σ δ Byte := do
  let v ← onBus (Bus.fetchOperand (← regs).pc)
  modifyRegs fun r => { r with pc := r.pc + 1 }
  return v

end Exec
end Z80
