import Z80.Block

/-!
What each instruction does. Executing an instruction tells whether it took
its longer path: a branch that is followed, or another round of a block
instruction. The latches that only record which instruction came last are
left to the step around it.
-/
namespace Z80

namespace Registers

/-- The address of a memory operand. -/
def cellAddress (r : Registers) : Cell → Word
  | .hl => r.hl
  | .ix d => r.ix + Word.displacement d
  | .iy d => r.iy + Word.displacement d

/-- A displaced address stays in the latch. -/
def latchCell (m : Cell) (r : Registers) : Registers :=
  match m with
  | .hl => r
  | .ix _ | .iy _ => { r with wz := r.cellAddress m }

/-- The flags of a byte that was input or came through a digit rotation. -/
def moved (v : Byte) (r : Registers) : Flags :=
  { Flags.ofLogic v with c := r.f.c }

/-- Puts a result and its flags into the accumulator. -/
def setResult (res : Result 8) (r : Registers) : Registers :=
  { r with a := res.value, f := res.flags }

/-- The address latch after the accumulator was written to an address. -/
def afterStoreA (r : Registers) (addr : Word) : Word :=
  Word.ofBytes r.a (addr + 1).low

end Registers

namespace Exec

variable {σ δ : Type}

def address (m : Cell) : Exec σ δ Word := do
  let addr := (← regs).cellAddress m
  modifyRegs (Registers.latchCell m)
  return addr

def indirect : Indirect → Exec σ δ Word
  | .bc => return (← regs).bc
  | .de => return (← regs).de
  | .absolute addr => return addr

/-- Puts the result of an operation on the accumulator in place. -/
def onA (op : Byte → Flags → Result 8) : Exec σ δ Unit :=
  modifyRegs fun r => r.setResult (op r.a r.f)

def jumpRelative (d : Byte) : Exec σ δ Unit := do
  jump ((← regs).pc + Word.displacement d)

/-- Acts if a condition holds, and tells so. -/
def branchIf (cc : Condition) (act : Exec σ δ Unit) : Exec σ δ Bool := do
  let taken := cc.holds (← regs).f
  if taken then act
  return taken

variable [Bus σ]

def readPlace : Place → Exec σ δ Byte
  | .reg r => return (← regs).reg8 r
  | .mem m => do read (← address m)

/-- Replaces an operand by the result of an operation on it. -/
def modifyPlace (p : Place) (op : Byte → Flags → Result 8) : Exec σ δ Byte :=
  match p with
  | .reg reg => do
    let r ← regs
    let res := op (r.reg8 reg) r.f
    modifyRegs fun r => { r.setReg8 reg res.value with f := res.flags }
    return res.value
  | .mem m => do
    let addr ← address m
    let v ← read addr
    let res := op v (← regs).f
    write addr res.value
    setFlags res.flags
    return res.value

def callTo (addr : Word) : Exec σ δ Unit := do
  push (← regs).pc
  modifyRegs fun r => { r with pc := addr }

def ret : Exec σ δ Unit := do
  jump (← pop)

/-- The operations of the bit page. A tested bit of a memory operand shows
the high byte of the address latch. -/
def bits (op : BitOp) (p : Place) (copy : Option Reg8) : Exec σ δ Unit := do
  match op with
  | .bit n =>
    let v ← readPlace p
    let r ← regs
    let leak := match p with
      | .reg _ => v
      | .mem _ => r.wz.high
    setFlags (Alu.bit n v leak r.f)
  | .rotate rot => store copy (← modifyPlace p rot.apply)
  | .res n => store copy (← modifyPlace p fun v f => ⟨Alu.res n v, f⟩)
  | .set n => store copy (← modifyPlace p fun v f => ⟨Alu.set n v, f⟩)
where
  store (copy : Option Reg8) (v : Byte) : Exec σ δ Unit :=
    match copy with
    | some r => modifyRegs (Registers.setReg8 r v)
    | none => pure ()

/-- Moves the digits of the accumulator and of a memory byte: `ra` makes the
new accumulator and `rm` the new memory byte. -/
def rotateDigits (ra rm : (a m : Byte) → Byte) : Exec σ δ Unit := do
  let r ← regs
  let m ← read r.hl
  write r.hl (rm r.a m)
  let a := ra r.a m
  modifyRegs fun r => { r with a, f := r.moved a, wz := r.hl + 1 }

variable [Peripheral δ]

/-- The instructions without a longer path. Those with one do nothing here. -/
def plain (i : Instr) : Exec σ δ Unit := do
  match i with
  | .ld dst src => modifyRegs fun r => r.setReg8 dst (r.reg8 src)
  | .ldImm dst n => modifyRegs (Registers.setReg8 dst n)
  | .load dst m =>
    let v ← read (← address m)
    modifyRegs (Registers.setReg8 dst v)
  | .store m src =>
    let addr ← address m
    write addr ((← regs).reg8 src)
  | .storeImm m n =>
    write (← address m) n
  | .loadA src =>
    let addr ← indirect src
    let v ← read addr
    modifyRegs fun r => { r with a := v, wz := addr + 1 }
  | .storeA dst =>
    let addr ← indirect dst
    write addr (← regs).a
    modifyRegs fun r => { r with wz := r.afterStoreA addr }
  | .ldSystem .i => modifyRegs fun r => { r with i := r.a }
  | .ldSystem .r => modifyRegs fun r => { r with r := r.a }
  | .ldFromSystem src =>
    modifyRegs fun r =>
      let v := match src with
        | .i => r.i
        | .r => r.r
      { r with a := v, f := { Flags.ofResult v with p := r.iff2, c := r.f.c } }
  | .ldImm16 dst nn => modifyRegs (Registers.setReg16 dst nn)
  | .loadPointer dst addr =>
    let w ← read16 addr
    modifyRegs fun r => { r.setPointer dst w with wz := addr + 1 }
  | .storePointer addr src =>
    write16 addr ((← regs).pointer src)
    latch (addr + 1)
  | .load16 dst addr =>
    let w ← read16 addr
    modifyRegs fun r => { r.setReg16 dst w with wz := addr + 1 }
  | .store16 addr src =>
    write16 addr ((← regs).reg16 src)
    latch (addr + 1)
  | .ldSP src => modifyRegs fun r => { r with sp := r.pointer src }
  | .push src => push ((← regs).reg16 src)
  | .pop dst =>
    let w ← pop
    modifyRegs (Registers.setReg16 dst w)
  | .exDEHL => modifyRegs Registers.swapDEHL
  | .exAF => modifyRegs Registers.swapAF
  | .exx => modifyRegs Registers.exx
  | .exSP p =>
    let r ← regs
    let w ← read16 r.sp
    write16 r.sp (r.pointer p)
    modifyRegs fun r => { r.setPointer p w with wz := w }
  | .alu op src =>
    let v ← readPlace src
    onA fun a f => op.apply a v f
  | .aluImm op n => onA fun a f => op.apply a n f
  | .inc p => discard (modifyPlace p Alu.inc)
  | .dec p => discard (modifyPlace p Alu.dec)
  | .inc16 dst => modifyRegs fun r => r.setReg16 dst (r.reg16 dst + 1)
  | .dec16 dst => modifyRegs fun r => r.setReg16 dst (r.reg16 dst - 1)
  | .add16 p src =>
    modifyRegs fun r =>
      let res := Alu.add16 (r.pointer p) (r.reg16 src) r.f
      { r.setPointer p res.value with f := res.flags, wz := r.pointer p + 1 }
  | .adc16 src =>
    modifyRegs fun r =>
      let res := Alu.adc16 r.hl (r.reg16 src) r.f
      { r.setHL res.value with f := res.flags, wz := r.hl + 1 }
  | .sbc16 src =>
    modifyRegs fun r =>
      let res := Alu.sbc16 r.hl (r.reg16 src) r.f
      { r.setHL res.value with f := res.flags, wz := r.hl + 1 }
  | .daa => onA Alu.daa
  | .cpl => onA Alu.cpl
  | .neg => onA fun a _ => Alu.neg a
  | .scf =>
    let q := (← cpu).q
    modifyRegs fun r => { r with f := Alu.scf r.a q r.f }
  | .ccf =>
    let q := (← cpu).q
    modifyRegs fun r => { r with f := Alu.ccf r.a q r.f }
  | .rotateA rot => onA rot.applyA
  | .bits op p copy => bits op p copy
  | .rrd =>
    rotateDigits (fun a m => Byte.highDigit a ++ Byte.lowDigit m)
      (fun a m => Byte.lowDigit a ++ Byte.highDigit m)
  | .rld =>
    rotateDigits (fun a m => Byte.highDigit a ++ Byte.highDigit m)
      (fun a m => Byte.lowDigit m ++ Byte.lowDigit a)
  | .jp addr => jump addr
  | .jpIf cc addr =>
    modifyRegs fun r => { r with pc := if cc.holds r.f then addr else r.pc, wz := addr }
  | .jpPointer p => modifyRegs fun r => { r with pc := r.pointer p }
  | .jr d => jumpRelative d
  | .call addr =>
    latch addr
    callTo addr
  | .ret => ret
  | .retn =>
    ret
    modifyRegs fun r => { r with iff1 := r.iff2 }
  | .reti =>
    ret
    modifyRegs fun r => { r with iff1 := r.iff2 }
    modifyCpu fun cpu => { cpu with chain := cpu.chain.map DaisyChain.reti }
  | .rst addr =>
    latch addr
    callTo addr
  | .halt => modifyRegs fun r => { r with pc := r.pc - 1, halted := true }
  | .di => modifyRegs fun r => { r with iff1 := false, iff2 := false }
  | .ei => modifyRegs fun r => { r with iff1 := true, iff2 := true }
  | .im mode => modifyRegs fun r => { r with im := mode }
  | .inA n =>
    let addr := Word.ofBytes (← regs).a n
    let v ← ioRead addr
    modifyRegs fun r => { r with a := v, wz := addr + 1 }
  | .outA n =>
    let a := (← regs).a
    ioWrite (Word.ofBytes a n) a
    latch (Word.ofBytes a (n + 1))
  | .inC dst =>
    let addr := (← regs).bc
    let v ← ioRead addr
    modifyRegs fun r =>
      let r := { r with f := r.moved v, wz := addr + 1 }
      match dst with
      | some dst => r.setReg8 dst v
      | none => r
  | .outC src =>
    let r ← regs
    ioWrite r.bc (match src with
      | some src => r.reg8 src
      | none => 0)
    latch (r.bc + 1)
  | .nop | .undefined | .jrIf .. | .djnz _ | .callIf .. | .retIf _ | .block .. => pure ()

/-- Executes an instruction and tells whether it took its longer path. -/
def execute (i : Instr) : Exec σ δ Bool := do
  match i with
  | .jrIf cc d => branchIf cc (jumpRelative d)
  | .djnz d =>
    let b := (← regs).b - 1
    modifyRegs fun r => { r with b }
    let taken := b != 0
    if taken then jumpRelative d
    return taken
  | .callIf cc addr =>
    latch addr
    branchIf cc (callTo addr)
  | .retIf cc => branchIf cc ret
  | .block kind dir repeats => block kind dir repeats
  | i =>
    plain i
    return false

end Exec
end Z80
