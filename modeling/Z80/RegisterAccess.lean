import Z80.Cpu

/-!
Reading and writing the processor by register name. Bytes and truth values
are read as words; a write to a byte takes the low byte of the word. The index
registers are words here, and their halves go through masks.
-/
namespace Z80

def Word.ofBool (b : Bool) : Word := if b then 1 else 0

namespace Cpu

variable {δ : Type}

def register (cpu : Cpu δ) (reg : RegisterName) : Word :=
  match reg with
  | .pc => cpu.regs.pc
  | .sp => cpu.regs.sp
  | .af => cpu.regs.af
  | .bc => cpu.regs.bc
  | .de => cpu.regs.de
  | .hl => cpu.regs.hl
  | .ix => cpu.regs.ix
  | .iy => cpu.regs.iy
  | .af' => cpu.regs.af'
  | .bc' => cpu.regs.bc'
  | .de' => cpu.regs.de'
  | .hl' => cpu.regs.hl'
  | .a => Word.ofByte cpu.regs.a
  | .f => Word.ofByte cpu.regs.f.toByte
  | .b => Word.ofByte cpu.regs.b
  | .c => Word.ofByte cpu.regs.c
  | .d => Word.ofByte cpu.regs.d
  | .e => Word.ofByte cpu.regs.e
  | .h => Word.ofByte cpu.regs.h
  | .l => Word.ofByte cpu.regs.l
  | .ixh => cpu.regs.ix >>> 8
  | .ixl => cpu.regs.ix &&& 0xFF
  | .iyh => cpu.regs.iy >>> 8
  | .iyl => cpu.regs.iy &&& 0xFF
  | .i => Word.ofByte cpu.regs.i
  | .r => Word.ofByte cpu.regs.r
  | .im => Word.ofByte cpu.regs.im
  | .iff1 => Word.ofBool cpu.regs.iff1
  | .iff2 => Word.ofBool cpu.regs.iff2
  | .halt => Word.ofBool cpu.regs.halted
  | .wz => cpu.regs.wz
  | .prepc => cpu.regs.prepc
  | .nmiState => Word.ofByte cpu.nmiLine.toByte
  | .irqState => Word.ofByte cpu.irqLine.toByte
  | .dc0 | .dc1 | .dc2 | .dc3 => Word.ofByte (reg.daisySlot.elim 0 cpu.slotState)

@[simp] theorem register_ixh (cpu : Cpu δ) :
    cpu.register .ixh = Word.ofByte cpu.regs.ixh :=
  Word.ofBytes_shiftRight _ _

@[simp] theorem register_ixl (cpu : Cpu δ) :
    cpu.register .ixl = Word.ofByte cpu.regs.ixl :=
  Word.ofBytes_and_FF _ _

@[simp] theorem register_iyh (cpu : Cpu δ) :
    cpu.register .iyh = Word.ofByte cpu.regs.iyh :=
  Word.ofBytes_shiftRight _ _

@[simp] theorem register_iyl (cpu : Cpu δ) :
    cpu.register .iyl = Word.ofByte cpu.regs.iyl :=
  Word.ofBytes_and_FF _ _

/-- There are three interrupt modes; a larger number means the last. -/
def clampMode (b : Byte) : Byte :=
  if b.toNat ≤ 2 then b else 2

variable [Peripheral δ]

/-- Writing a line state drives the line. -/
def setRegister (reg : RegisterName) (v : Word) (cpu : Cpu δ) : Cpu δ :=
  match reg with
  | .pc => cpu.modifyRegs fun r => { r with pc := v }
  | .sp => cpu.modifyRegs fun r => { r with sp := v }
  | .af => cpu.modifyRegs (Registers.setAF v)
  | .bc => cpu.modifyRegs (Registers.setBC v)
  | .de => cpu.modifyRegs (Registers.setDE v)
  | .hl => cpu.modifyRegs (Registers.setHL v)
  | .ix => cpu.modifyRegs (Registers.setIX v)
  | .iy => cpu.modifyRegs (Registers.setIY v)
  | .af' => cpu.modifyRegs (Registers.setAF' v)
  | .bc' => cpu.modifyRegs (Registers.setBC' v)
  | .de' => cpu.modifyRegs (Registers.setDE' v)
  | .hl' => cpu.modifyRegs (Registers.setHL' v)
  | .a => cpu.modifyRegs fun r => { r with a := v.low }
  | .f => cpu.modifyRegs fun r => { r with f := Flags.ofByte v.low }
  | .b => cpu.modifyRegs fun r => { r with b := v.low }
  | .c => cpu.modifyRegs fun r => { r with c := v.low }
  | .d => cpu.modifyRegs fun r => { r with d := v.low }
  | .e => cpu.modifyRegs fun r => { r with e := v.low }
  | .h => cpu.modifyRegs fun r => { r with h := v.low }
  | .l => cpu.modifyRegs fun r => { r with l := v.low }
  | .ixh => cpu.modifyRegs fun r => r.setIX (r.ix.withHigh v.low)
  | .ixl => cpu.modifyRegs fun r => r.setIX (r.ix.withLow v.low)
  | .iyh => cpu.modifyRegs fun r => r.setIY (r.iy.withHigh v.low)
  | .iyl => cpu.modifyRegs fun r => r.setIY (r.iy.withLow v.low)
  | .i => cpu.modifyRegs fun r => { r with i := v.low }
  | .r => cpu.modifyRegs fun r => { r with r := v.low }
  | .im => cpu.modifyRegs fun r => { r with im := clampMode v.low }
  | .iff1 => cpu.modifyRegs fun r => { r with iff1 := v != 0 }
  | .iff2 => cpu.modifyRegs fun r => { r with iff2 := v != 0 }
  | .halt => cpu.modifyRegs fun r => { r with halted := v != 0 }
  | .wz => cpu.modifyRegs fun r => { r with wz := v }
  | .prepc => cpu.modifyRegs fun r => { r with prepc := v }
  | .nmiState => cpu.setNmiLine (LineState.ofByte v.low)
  | .irqState => cpu.setIrqLine (LineState.ofByte v.low)
  | .dc0 | .dc1 | .dc2 | .dc3 => reg.daisySlot.elim cpu fun slot => cpu.setSlotState slot v.low

section

variable (cpu : Cpu δ) (v : Word)

@[simp] theorem setRegister_ixh :
    cpu.setRegister .ixh v = cpu.modifyRegs fun r => { r with ixh := v.low } :=
  congrArg (fun regs => { cpu with regs }) (Registers.setIX_withHigh v.low cpu.regs)

@[simp] theorem setRegister_ixl :
    cpu.setRegister .ixl v = cpu.modifyRegs fun r => { r with ixl := v.low } :=
  congrArg (fun regs => { cpu with regs }) (Registers.setIX_withLow v.low cpu.regs)

@[simp] theorem setRegister_iyh :
    cpu.setRegister .iyh v = cpu.modifyRegs fun r => { r with iyh := v.low } :=
  congrArg (fun regs => { cpu with regs }) (Registers.setIY_withHigh v.low cpu.regs)

@[simp] theorem setRegister_iyl :
    cpu.setRegister .iyl v = cpu.modifyRegs fun r => { r with iyl := v.low } :=
  congrArg (fun regs => { cpu with regs }) (Registers.setIY_withLow v.low cpu.regs)

end

end Cpu
end Z80
