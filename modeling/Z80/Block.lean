import Z80.Machine

/-!
The block instructions: copy, search, input and output. Each moves one byte
and steps its addresses. The repeating forms go back to their own opcode
until they are done, so every round is an instruction of its own.
-/
namespace Z80

namespace Block

/-- The flags of one copied byte. Bits 5 and 3 come from the byte plus the
accumulator. -/
def copyFlags (a v : Byte) (f : Flags) (more : Bool) : Flags :=
  let n := v + a
  { s := f.s
    z := f.z
    y := n.getLsbD 1
    x := n.getLsbD 3
    p := more
    c := f.c }

/-- The flags of one compared byte. Bits 5 and 3 come from the difference,
less one after a half borrow. -/
def searchFlags (a v : Byte) (f : Flags) (more : Bool) : Flags :=
  let diff := a - v
  let half := (a ^^^ v ^^^ diff).getLsbD 4
  let n := if half then diff - 1 else diff
  { Flags.ofResult diff with
    y := n.getLsbD 1
    h := half
    x := n.getLsbD 3
    p := more
    n := true
    c := f.c }

/-- The byte whose parity an input or output reports. `k` is the sum of the byte
and of the low address byte. -/
def ioParity (b : Byte) (k : Nat) : Byte :=
  BitVec.ofNat 8 (k % 8) ^^^ b

/-- The flags of one byte of input or output, where `b` is the new
counter. -/
def ioFlags (b v : Byte) (k : Nat) : Flags :=
  let carry := 255 < k
  { Flags.ofResult b with
    h := carry
    p := Flags.evenParity (ioParity b k)
    n := v.msb
    c := carry }

/-- Another round of input or output puts the counter through the adder once
more, which changes half carry and parity. -/
def ioFlagsAgain (b v : Byte) (k : Nat) : Flags :=
  let f := ioFlags b v k
  let stepped := if !f.c then b else if v.msb then b - 1 else b + 1
  { f with
    h := f.c && (b.setWidth 4 == if v.msb then 0x0#4 else 0xF#4)
    p := Flags.evenParity (ioParity b k ^^^ (stepped &&& 7)) }

/-- Bits 5 and 3 of another round: those of the high byte of the program
counter. -/
def withCounter (pc : Word) (f : Flags) : Flags :=
  { f with
    y := pc.high.getLsbD 5
    x := pc.high.getLsbD 3 }

end Block

namespace Exec

variable {σ δ : Type}

/-- Ends a round with flags `last`, or goes back for another one with flags
`next`. Tells whether it went back. -/
def endRound (again : Bool) (last next : Flags) : Exec σ δ Bool := do
  modifyRegs fun r =>
    if again then
      { r with pc := r.pc - 2, wz := r.pc - 1, f := Block.withCounter (r.pc - 2) next }
    else
      { r with f := last }
  return again

variable [Bus σ]

def blockCopy (dir : Direction) (repeats : Bool) : Exec σ δ Bool := do
  let r ← regs
  let v ← read r.hl
  write r.de v
  let count := r.bc - 1
  modifyRegs fun r =>
    ((r.setHL (r.hl + dir.step)).setDE (r.de + dir.step)).setBC count
  let more := count != 0
  let f := Block.copyFlags r.a v r.f more
  endRound (repeats && more) f f

def blockSearch (dir : Direction) (repeats : Bool) : Exec σ δ Bool := do
  let r ← regs
  let v ← read r.hl
  let count := r.bc - 1
  modifyRegs fun r =>
    { (r.setHL (r.hl + dir.step)).setBC count with wz := r.wz + dir.step }
  let more := count != 0
  let f := Block.searchFlags r.a v r.f more
  endRound (repeats && more && !f.z) f f

def blockInput (dir : Direction) (repeats : Bool) : Exec σ δ Bool := do
  let r ← regs
  let v ← ioRead r.bc
  write r.hl v
  let b := r.b - 1
  modifyRegs fun r =>
    { r.setHL (r.hl + dir.step) with b, wz := r.bc + dir.step }
  let k := v.toNat + (r.c + dir.step.low).toNat
  endRound (repeats && b != 0) (Block.ioFlags b v k) (Block.ioFlagsAgain b v k)

def blockOutput (dir : Direction) (repeats : Bool) : Exec σ δ Bool := do
  let r ← regs
  let v ← read r.hl
  let b := r.b - 1
  let addr := Word.ofBytes b r.c
  ioWrite addr v
  let hl := r.hl + dir.step
  modifyRegs fun r => { r.setHL hl with b, wz := addr + dir.step }
  let k := v.toNat + hl.low.toNat
  endRound (repeats && b != 0) (Block.ioFlags b v k) (Block.ioFlagsAgain b v k)

def block (kind : BlockKind) (dir : Direction) (repeats : Bool) : Exec σ δ Bool :=
  match kind with
  | .copy => blockCopy dir repeats
  | .search => blockSearch dir repeats
  | .input => blockInput dir repeats
  | .output => blockOutput dir repeats

end Exec
end Z80
