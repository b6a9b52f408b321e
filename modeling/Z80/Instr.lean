import Z80.Alu

/-!
Decoded instructions. Operands are named explicitly: an instruction that an
index prefix turns towards IX or IY names the halves of that register, or a
memory cell at a displacement from it.
-/
namespace Z80

inductive Reg8
  | a | b | c | d | e | h | l | ixh | ixl | iyh | iyl
deriving DecidableEq

inductive Reg16
  | af | bc | de | hl | ix | iy | sp
deriving DecidableEq

/-- The register that an instruction uses as its memory pointer: HL, or what
an index prefix puts into its place. -/
inductive Pointer
  | hl | ix | iy
deriving DecidableEq

/-- A memory operand reached through a pointer. -/
inductive Cell
  | hl
  | ix (d : Byte)
  | iy (d : Byte)
deriving DecidableEq

/-- An operand that is read, changed and written back. -/
inductive Place
  | reg (r : Reg8)
  | mem (m : Cell)
deriving DecidableEq

/-- Where the accumulator alone is loaded from and stored to. -/
inductive Indirect
  | bc
  | de
  | absolute (addr : Word)
deriving DecidableEq

inductive Condition
  | nz | z | nc | c | po | pe | p | m
deriving DecidableEq

def Condition.holds (f : Flags) : Condition → Bool
  | .nz => !f.z
  | .z => f.z
  | .nc => !f.c
  | .c => f.c
  | .po => !f.p
  | .pe => f.p
  | .p => !f.s
  | .m => f.s

/-- The two registers of the interrupt and refresh logic. -/
inductive SystemReg
  | i | r
deriving DecidableEq

inductive BitOp
  | rotate (r : Rotation)
  | bit (n : Fin 8)
  | res (n : Fin 8)
  | set (n : Fin 8)
deriving DecidableEq

inductive BlockKind
  | copy | search | input | output
deriving DecidableEq

inductive Direction
  | up | down
deriving DecidableEq

/-- What a block instruction adds to its addresses. -/
def Direction.step : Direction → Word
  | .up => 1
  | .down => -1

inductive Instr
  | nop
  /-- A code without a meaning on the extended page. It does nothing. -/
  | undefined
  | ld (dst src : Reg8)
  | ldImm (dst : Reg8) (n : Byte)
  | load (dst : Reg8) (src : Cell)
  | store (dst : Cell) (src : Reg8)
  | storeImm (dst : Cell) (n : Byte)
  | loadA (src : Indirect)
  | storeA (dst : Indirect)
  /-- Stores: `LD I,A` and `LD R,A`. -/
  | ldSystem (dst : SystemReg)
  /-- Reads: `LD A,I` and `LD A,R`. -/
  | ldFromSystem (src : SystemReg)
  | ldImm16 (dst : Reg16) (nn : Word)
  /-- The short form of `LD HL,(nn)`. -/
  | loadPointer (dst : Pointer) (addr : Word)
  /-- The short form of `LD (nn),HL`. -/
  | storePointer (addr : Word) (src : Pointer)
  | load16 (dst : Reg16) (addr : Word)
  | store16 (addr : Word) (src : Reg16)
  | ldSP (src : Pointer)
  | push (src : Reg16)
  | pop (dst : Reg16)
  | exDEHL
  | exAF
  | exx
  | exSP (p : Pointer)
  | alu (op : AluOp) (src : Place)
  | aluImm (op : AluOp) (n : Byte)
  | inc (p : Place)
  | dec (p : Place)
  | inc16 (r : Reg16)
  | dec16 (r : Reg16)
  | add16 (p : Pointer) (src : Reg16)
  | adc16 (src : Reg16)
  | sbc16 (src : Reg16)
  | daa
  | cpl
  | neg
  | scf
  | ccf
  | rotateA (r : Rotation)
  /-- A changed operand may be copied to a register as well. -/
  | bits (op : BitOp) (p : Place) (copy : Option Reg8)
  | rrd
  | rld
  | jp (addr : Word)
  | jpIf (cc : Condition) (addr : Word)
  | jpPointer (p : Pointer)
  | jr (d : Byte)
  | jrIf (cc : Condition) (d : Byte)
  | djnz (d : Byte)
  | call (addr : Word)
  | callIf (cc : Condition) (addr : Word)
  | ret
  | retIf (cc : Condition)
  | retn
  | reti
  | rst (addr : Word)
  | halt
  | di
  | ei
  | im (mode : Byte)
  | inA (n : Byte)
  | outA (n : Byte)
  /-- Input `IN r,(C)`. Without a register only the flags change. -/
  | inC (dst : Option Reg8)
  /-- Output `OUT (C),r`. Without a register the value is 0. -/
  | outC (src : Option Reg8)
  | block (kind : BlockKind) (dir : Direction) (repeats : Bool)
deriving DecidableEq

namespace Pointer

def high : Pointer → Reg8
  | .hl => .h
  | .ix => .ixh
  | .iy => .iyh

def low : Pointer → Reg8
  | .hl => .l
  | .ix => .ixl
  | .iy => .iyl

/-- What stands in the place of a half of HL. -/
def half (p : Pointer) : Reg8 → Reg8
  | .h => p.high
  | .l => p.low
  | r => r

def pair : Pointer → Reg16
  | .hl => .hl
  | .ix => .ix
  | .iy => .iy

/-- The memory operand at a displacement, which HL does not use. -/
def cell (d : Byte) : Pointer → Cell
  | .hl => .hl
  | .ix => .ix d
  | .iy => .iy d

end Pointer

namespace Instr

/-- The instruction writes the flags as a result. `POP AF` and `EX AF,AF'`
only move them. -/
def setsFlags : Instr → Bool
  | .ldFromSystem _ | .alu .. | .aluImm .. | .inc _ | .dec _ | .add16 .. | .adc16 _
  | .sbc16 _ | .daa | .cpl | .neg | .scf | .ccf | .rotateA _ | .bits (.rotate _) ..
  | .bits (.bit _) .. | .rrd | .rld | .inC _ | .block .. => true
  | _ => false

/-- The instruction is `LD A,I` or `LD A,R`. -/
def readsSystem : Instr → Bool
  | .ldFromSystem _ => true
  | _ => false

end Instr
end Z80
