import Z80.Timing

/-!
From opcode bytes to instructions. An opcode is read as three fields: the
two bits on top, the three in the middle and the three at the bottom. The
decoder takes the pointer register that the instruction is to use, so an
index prefix only decodes the next code with another pointer.
-/
namespace Z80

/-- An instruction that waits for its operand bytes. Of a word the low byte
comes first. -/
inductive Form
  | fixed (i : Instr)
  | byte (make : Byte → Instr)
  | word (make : Word → Instr)

namespace Form

/-- The instruction with operand bytes of 0, which tells its cost. -/
def sample : Form → Instr
  | .fixed i => i
  | .byte make => make 0
  | .word make => make 0

/-- An instruction on the memory operand of a pointer. -/
def ofCell (p : Pointer) (make : Cell → Instr) : Form :=
  match p with
  | .hl => .fixed (make .hl)
  | .ix => .byte fun d => make (.ix d)
  | .iy => .byte fun d => make (.iy d)

/-- An instruction on the memory operand of a pointer and a byte after it. -/
def ofCellImm (p : Pointer) (make : Cell → Byte → Instr) : Form :=
  match p with
  | .hl => .byte fun n => make .hl n
  | .ix => .word fun w => make (.ix w.low) w.high
  | .iy => .word fun w => make (.iy w.low) w.high

end Form

/-- What an opcode of the main page begins. -/
inductive Opcode
  | instr (form : Form)
  /-- The next byte is a code of the bit page. -/
  | bits
  /-- The next byte is a code of the extended page. -/
  | extended
  /-- The next opcode uses an index register as its pointer. -/
  | index (p : Pointer)

/-- Code 6 stands for the memory operand. -/
def Reg8.ofCode : Nat → Option Reg8
  | 0 => some .b
  | 1 => some .c
  | 2 => some .d
  | 3 => some .e
  | 4 => some .h
  | 5 => some .l
  | 6 => none
  | _ => some .a

def Reg16.ofCode (p : Pointer) : Nat → Reg16
  | 0 => .bc
  | 1 => .de
  | 2 => p.pair
  | _ => .sp

/-- On the stack AF takes the place of SP. -/
def Reg16.ofStackCode (p : Pointer) : Nat → Reg16
  | 0 => .bc
  | 1 => .de
  | 2 => p.pair
  | _ => .af

def Condition.ofCode : Nat → Condition
  | 0 => .nz
  | 1 => .z
  | 2 => .nc
  | 3 => .c
  | 4 => .po
  | 5 => .pe
  | 6 => .p
  | _ => .m

def AluOp.ofCode : Nat → AluOp
  | 0 => .add
  | 1 => .adc
  | 2 => .sub
  | 3 => .sbc
  | 4 => .and
  | 5 => .xor
  | 6 => .or
  | _ => .cp

def Rotation.ofCode : Nat → Rotation
  | 0 => .rlc
  | 1 => .rrc
  | 2 => .rl
  | 3 => .rr
  | 4 => .sla
  | 5 => .sra
  | 6 => .sll
  | _ => .srl

namespace Opcode

def top (op : Byte) : Nat := op.toNat / 64
def middle (op : Byte) : Nat := op.toNat / 8 % 8
def bottom (op : Byte) : Nat := op.toNat % 8

/-- Of the middle field, the two bits that name a register pair. -/
def pairCode (op : Byte) : Nat := op.toNat / 16 % 4

/-- Of the middle field, the bit that tells two groups of pairs apart. -/
def oddRow (op : Byte) : Bool := op.getLsbD 3

theorem top_eq_three {op : Byte} (hzero : top op ≠ 0) (hone : top op ≠ 1) (htwo : top op ≠ 2) :
    top op = 3 := by
  have hlt : top op < 4 := Nat.div_lt_of_lt_mul op.isLt
  omega

/-- An instruction on a register or on the memory operand. -/
def onPlace (p : Pointer) (code : Nat) (make : Place → Instr) : Form :=
  match Reg8.ofCode code with
  | some r => .fixed (make (.reg (p.half r)))
  | none => .ofCell p fun m => make (.mem m)

/-- Codes `00` to `3F`. -/
def lowQuarter (p : Pointer) (op : Byte) : Form :=
  match bottom op with
  | 0 =>
    match middle op with
    | 0 => .fixed .nop
    | 1 => .fixed .exAF
    | 2 => .byte .djnz
    | 3 => .byte .jr
    | y => .byte (.jrIf (Condition.ofCode (y - 4)))
  | 1 =>
    if oddRow op then .fixed (.add16 p (Reg16.ofCode p (pairCode op)))
    else .word (.ldImm16 (Reg16.ofCode p (pairCode op)))
  | 2 =>
    match middle op with
    | 0 => .fixed (.storeA .bc)
    | 1 => .fixed (.loadA .bc)
    | 2 => .fixed (.storeA .de)
    | 3 => .fixed (.loadA .de)
    | 4 => .word fun addr => .storePointer addr p
    | 5 => .word fun addr => .loadPointer p addr
    | 6 => .word fun addr => .storeA (.absolute addr)
    | _ => .word fun addr => .loadA (.absolute addr)
  | 3 =>
    if oddRow op then .fixed (.dec16 (Reg16.ofCode p (pairCode op)))
    else .fixed (.inc16 (Reg16.ofCode p (pairCode op)))
  | 4 => onPlace p (middle op) .inc
  | 5 => onPlace p (middle op) .dec
  | 6 =>
    match Reg8.ofCode (middle op) with
    | some r => .byte (.ldImm (p.half r))
    | none => .ofCellImm p .storeImm
  | _ =>
    match middle op with
    | 4 => .fixed .daa
    | 5 => .fixed .cpl
    | 6 => .fixed .scf
    | 7 => .fixed .ccf
    | y => .fixed (.rotateA (Rotation.ofCode y))

/-- Codes `40` to `7F`. Beside a memory operand the other register is H or L
itself, whatever the pointer. -/
def loads (p : Pointer) (op : Byte) : Form :=
  match Reg8.ofCode (middle op), Reg8.ofCode (bottom op) with
  | some dst, some src => .fixed (.ld (p.half dst) (p.half src))
  | some dst, none => .ofCell p fun m => .load dst m
  | none, some src => .ofCell p fun m => .store m src
  | none, none => .fixed .halt

/-- Codes `C0` to `FF`. -/
def highQuarter (p : Pointer) (op : Byte) : Opcode :=
  match bottom op with
  | 0 => .instr (.fixed (.retIf (Condition.ofCode (middle op))))
  | 1 =>
    if oddRow op then
      match pairCode op with
      | 0 => .instr (.fixed .ret)
      | 1 => .instr (.fixed .exx)
      | 2 => .instr (.fixed (.jpPointer p))
      | _ => .instr (.fixed (.ldSP p))
    else .instr (.fixed (.pop (Reg16.ofStackCode p (pairCode op))))
  | 2 => .instr (.word (.jpIf (Condition.ofCode (middle op))))
  | 3 =>
    match middle op with
    | 0 => .instr (.word .jp)
    | 1 => .bits
    | 2 => .instr (.byte .outA)
    | 3 => .instr (.byte .inA)
    | 4 => .instr (.fixed (.exSP p))
    | 5 => .instr (.fixed .exDEHL)
    | 6 => .instr (.fixed .di)
    | _ => .instr (.fixed .ei)
  | 4 => .instr (.word (.callIf (Condition.ofCode (middle op))))
  | 5 =>
    if oddRow op then
      match pairCode op with
      | 0 => .instr (.word .call)
      | 1 => .index .ix
      | 2 => .extended
      | _ => .index .iy
    else .instr (.fixed (.push (Reg16.ofStackCode p (pairCode op))))
  | 6 => .instr (.byte (.aluImm (AluOp.ofCode (middle op))))
  | _ => .instr (.fixed (.rst (BitVec.ofNat 16 (8 * middle op))))

/-- The main page. -/
def decode (p : Pointer) (op : Byte) : Opcode :=
  match top op with
  | 0 => .instr (lowQuarter p op)
  | 1 => .instr (loads p op)
  | 2 => .instr (onPlace p (bottom op) (.alu (AluOp.ofCode (middle op))))
  | _ => highQuarter p op

end Opcode

namespace BitOp

def decode (op : Byte) : BitOp :=
  let n : Fin 8 := ⟨Opcode.middle op, Nat.mod_lt _ (by decide)⟩
  match Opcode.top op with
  | 0 => .rotate (Rotation.ofCode n)
  | 1 => .bit n
  | 2 => .res n
  | _ => .set n

end BitOp

namespace Instr

/-- The bit page. -/
def ofBits (op : Byte) : Instr :=
  match Reg8.ofCode (Opcode.bottom op) with
  | some r => .bits (BitOp.decode op) (.reg r) none
  | none => .bits (BitOp.decode op) (.mem .hl) none

/-- The bit page behind an index prefix. The operand is always in memory; a
register in its place receives a copy. -/
def ofIndexedBits (p : Pointer) (d op : Byte) : Instr :=
  .bits (BitOp.decode op) (.mem (p.cell d)) (Reg8.ofCode (Opcode.bottom op))

end Instr

namespace Form

open Opcode

/-- Codes `40` to `7F` of the extended page. -/
def extendedCore (op : Byte) : Form :=
  match bottom op with
  | 0 => .fixed (.inC (Reg8.ofCode (middle op)))
  | 1 => .fixed (.outC (Reg8.ofCode (middle op)))
  | 2 =>
    if oddRow op then .fixed (.adc16 (Reg16.ofCode .hl (pairCode op)))
    else .fixed (.sbc16 (Reg16.ofCode .hl (pairCode op)))
  | 3 =>
    if oddRow op then .word fun addr => .load16 (Reg16.ofCode .hl (pairCode op)) addr
    else .word fun addr => .store16 addr (Reg16.ofCode .hl (pairCode op))
  | 4 => .fixed .neg
  | 5 => .fixed (if middle op = 1 then .reti else .retn)
  | 6 =>
    match middle op with
    | 2 | 6 => .fixed (.im 1)
    | 3 | 7 => .fixed (.im 2)
    | _ => .fixed (.im 0)
  | _ =>
    match middle op with
    | 0 => .fixed (.ldSystem .i)
    | 1 => .fixed (.ldSystem .r)
    | 2 => .fixed (.ldFromSystem .i)
    | 3 => .fixed (.ldFromSystem .r)
    | 4 => .fixed .rrd
    | 5 => .fixed .rld
    | _ => .fixed .undefined

def blockKind : Nat → Option BlockKind
  | 0 => some .copy
  | 1 => some .search
  | 2 => some .input
  | 3 => some .output
  | _ => none

/-- Codes `80` to `BF` of the extended page: block instructions in the upper
half of the rows. -/
def extendedBlock (op : Byte) : Form :=
  match blockKind (bottom op) with
  | none => .fixed .undefined
  | some kind =>
    match middle op with
    | 4 => .fixed (.block kind .up false)
    | 5 => .fixed (.block kind .down false)
    | 6 => .fixed (.block kind .up true)
    | 7 => .fixed (.block kind .down true)
    | _ => .fixed .undefined

/-- The extended page. -/
def ofExtended (op : Byte) : Form :=
  match top op with
  | 1 => extendedCore op
  | 2 => extendedBlock op
  | _ => .fixed .undefined

end Form
end Z80
