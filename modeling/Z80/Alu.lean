import Z80.Flags

/-!
Arithmetic, logic, rotation and decimal adjustment. Every operation takes
its operands and the flags before it, and gives the value and the flags
after it. The flags of a sum or a difference of bytes are those of a table
that does not know the second operand; those of words are read off the bits
of a sum or a difference of 32 bits.
-/
namespace Z80

/-- A value of `n` bits with the flags that go with it. -/
structure Result (n : Nat) where
  value : BitVec n
  flags : Flags
deriving DecidableEq

namespace Alu

def carryIn (n : Nat) (carry : Bool) : BitVec n :=
  BitVec.ofNat n carry.toNat

/-- The flags of the addition that leads from `old` to `result`. The operand
is their difference, of which only bit 7 is looked at. A result that is not
above the byte before it tells of a carry; with a carry in, one that is equal
does so too. -/
def addFlags (old result : Byte) (carry : Bool) : Flags :=
  let before := old.setWidth 32
  let after := result.setWidth 32
  let operand := after - before - carryIn 32 carry
  let lowBefore := old &&& 0x0F
  let lowAfter := result &&& 0x0F
  { Flags.ofResult result with
    h := if carry then lowAfter ≤ lowBefore else lowAfter < lowBefore
    p := (operand ^^^ before ^^^ 0x80) &&& (operand ^^^ after) &&& 0x80 != 0
    c := if carry then result ≤ old else result < old }

/-- The flags of the subtraction that leads from `old` to `result`. -/
def subFlags (old result : Byte) (carry : Bool) : Flags :=
  let before := old.setWidth 32
  let after := result.setWidth 32
  let operand := before - after - carryIn 32 carry
  let lowBefore := old &&& 0x0F
  let lowAfter := result &&& 0x0F
  { Flags.ofResult result with
    h := if carry then lowBefore ≤ lowAfter else lowBefore < lowAfter
    p := (operand ^^^ before) &&& (before ^^^ after) &&& 0x80 != 0
    n := true
    c := if carry then old ≤ result else old < result }

/-- `a + b` with a carry in. -/
def add (a b : Byte) (carry : Bool) : Result 8 :=
  let value := a + b + carryIn 8 carry
  { value
    flags := addFlags a value carry }

/-- `a - b` with a borrow in. -/
def sub (a b : Byte) (carry : Bool) : Result 8 :=
  let value := a - b - carryIn 8 carry
  { value
    flags := subFlags a value carry }

/-- A comparison is a subtraction that keeps only the flags, and copies bits
5 and 3 from the operand. -/
def compare (a b : Byte) : Flags :=
  { subFlags a (a - b) false with
    y := b.getLsbD 5
    x := b.getLsbD 3 }

def and (a b : Byte) : Result 8 :=
  { value := a &&& b
    flags := { Flags.ofLogic (a &&& b) with h := true } }

def or (a b : Byte) : Result 8 :=
  { value := a ||| b
    flags := Flags.ofLogic (a ||| b) }

def xor (a b : Byte) : Result 8 :=
  { value := a ^^^ b
    flags := Flags.ofLogic (a ^^^ b) }

end Alu

/-- The eight operations between the accumulator and an operand, in the
order of their codes. -/
inductive AluOp
  | add | adc | sub | sbc | and | xor | or | cp
deriving DecidableEq

/-- The new accumulator, which a comparison leaves alone, and the flags. -/
def AluOp.apply (op : AluOp) (a b : Byte) (f : Flags) : Result 8 :=
  match op with
  | .add => Alu.add a b false
  | .adc => Alu.add a b f.c
  | .sub => Alu.sub a b false
  | .sbc => Alu.sub a b f.c
  | .and => Alu.and a b
  | .xor => Alu.xor a b
  | .or => Alu.or a b
  | .cp => { value := a, flags := Alu.compare a b }

namespace Alu

/-- The carry is kept. -/
def inc (v : Byte) (f : Flags) : Result 8 :=
  { value := v + 1
    flags := { Flags.ofIncrement (v + 1) with c := f.c } }

/-- The carry is kept. -/
def dec (v : Byte) (f : Flags) : Result 8 :=
  { value := v - 1
    flags := { Flags.ofDecrement (v - 1) with c := f.c } }

/-- What the decimal adjustment adds or takes away. -/
def correction (a : Byte) (f : Flags) : Byte :=
  let low := a &&& 0x0F
  let high := a >>> 4
  if f.c then
    if low ≤ 9 ∧ !f.h then 0x60 else 0x66
  else if 10 ≤ low then
    if high ≤ 8 then 0x06 else 0x66
  else if 10 ≤ high then
    if f.h then 0x66 else 0x60
  else if f.h then 0x06
  else 0x00

/-- Decimal adjustment after an addition or a subtraction of packed decimal
bytes. Six is added to or taken from a digit that left the decimal range. -/
def daa (a : Byte) (f : Flags) : Result 8 :=
  let low := a &&& 0x0F
  let high := a >>> 4
  let value := if f.n then a - correction a f else a + correction a f
  let carry : Bool := if low ≤ 9 then 10 ≤ high else 9 ≤ high
  { value
    flags :=
      { Flags.ofLogic value with
        h := if f.n then f.h && low ≤ 5 else 10 ≤ low
        n := f.n
        c := f.c || carry } }

def cpl (a : Byte) (f : Flags) : Result 8 :=
  { value := ~~~a
    flags :=
      { f with
        y := (~~~a).getLsbD 5
        h := true
        x := (~~~a).getLsbD 3
        n := true } }

def neg (a : Byte) : Result 8 :=
  sub 0 a false

/-- Bits 5 and 3 of the two carry operations: those of the accumulator,
together with the bits in which the flags differ from `q`, the flags that
the instruction before has written. -/
def carryOp (a : Byte) (q f : Flags) (h c : Bool) : Flags :=
  { f with
    y := (q.y ^^ f.y) || a.getLsbD 5
    h
    x := (q.x ^^ f.x) || a.getLsbD 3
    n := false
    c }

def scf (a : Byte) (q f : Flags) : Flags :=
  carryOp a q f false true

def ccf (a : Byte) (q f : Flags) : Flags :=
  carryOp a q f f.c (!f.c)

end Alu

/-- Rotations and shifts, in the order of their codes. -/
inductive Rotation
  | rlc | rrc | rl | rr | sla | sra | sll | srl
deriving DecidableEq

namespace Rotation

def isLeft : Rotation → Bool
  | .rlc | .rl | .sla | .sll => true
  | .rrc | .rr | .sra | .srl => false

/-- The bit that enters at the free end. -/
def bitIn (r : Rotation) (v : Byte) (carry : Bool) : Bool :=
  match r with
  | .rlc => v.msb
  | .rrc => v.getLsbD 0
  | .rl | .rr => carry
  | .sla | .srl => false
  | .sra => v.msb
  | .sll => true

/-- The bit that leaves at the other end and becomes the carry. -/
def bitOut (r : Rotation) (v : Byte) : Bool :=
  if r.isLeft then v.msb else v.getLsbD 0

def value (r : Rotation) (v : Byte) (carry : Bool) : Byte :=
  if r.isLeft then v.setWidth 7 ++ BitVec.ofBool (r.bitIn v carry)
  else BitVec.ofBool (r.bitIn v carry) ++ v.extractLsb' 1 7

def apply (r : Rotation) (v : Byte) (f : Flags) : Result 8 :=
  { value := r.value v f.c
    flags := { Flags.ofLogic (r.value v f.c) with c := r.bitOut v } }

/-- The short forms on the accumulator keep sign, zero and parity. -/
def applyA (r : Rotation) (a : Byte) (f : Flags) : Result 8 :=
  let value := r.value a f.c
  { value
    flags :=
      { f with
        y := value.getLsbD 5
        h := false
        x := value.getLsbD 3
        n := false
        c := r.bitOut a } }

end Rotation

namespace Alu

def bitMask (n : Fin 8) : Byte :=
  BitVec.twoPow 8 n

/-- The test of bit `n` of `v`. Bits 5 and 3 come from `leak`, which is the
operand itself or a byte of the address latch. -/
def bit (n : Fin 8) (v leak : Byte) (f : Flags) : Flags :=
  { Flags.ofMasked (v &&& bitMask n) with
    y := leak.getLsbD 5
    h := true
    x := leak.getLsbD 3
    c := f.c }

def res (n : Fin 8) (v : Byte) : Byte :=
  v &&& ~~~bitMask n

def set (n : Fin 8) (v : Byte) : Byte :=
  v ||| bitMask n

/-- A byte of a number of 32 bits, read as flags. The bit that a flag stands
for keeps its place in the byte. -/
def flagsAt (shift : Nat) (n : BitVec 32) : Flags :=
  Flags.ofByte ((n >>> shift).setWidth 8)

/-- The sixteen-bit addition keeps sign, zero and parity. -/
def add16 (a b : Word) (f : Flags) : Result 16 :=
  let a' := a.setWidth 32
  let b' := b.setWidth 32
  let sum := a' + b'
  { value := sum.setWidth 16
    flags :=
      { f with
        y := (flagsAt 8 sum).y
        h := (flagsAt 8 (a' ^^^ sum ^^^ b')).h
        x := (flagsAt 8 sum).x
        n := false
        c := (flagsAt 16 sum).c } }

def adc16 (a b : Word) (f : Flags) : Result 16 :=
  let a' := a.setWidth 32
  let b' := b.setWidth 32
  let sum := a' + b' + carryIn 32 f.c
  { value := sum.setWidth 16
    flags :=
      { s := (flagsAt 8 sum).s
        z := sum &&& 0xFFFF == 0
        y := (flagsAt 8 sum).y
        h := (flagsAt 8 (a' ^^^ sum ^^^ b')).h
        x := (flagsAt 8 sum).x
        p := (b' ^^^ a' ^^^ 0x8000) &&& (b' ^^^ sum) &&& 0x8000 != 0
        n := false
        c := (flagsAt 16 sum).c } }

/-- The difference wraps around, so that a borrow shows in the bits above the
word. -/
def sbc16 (a b : Word) (f : Flags) : Result 16 :=
  let a' := a.setWidth 32
  let b' := b.setWidth 32
  let difference := a' - b' - carryIn 32 f.c
  { value := difference.setWidth 16
    flags :=
      { s := (flagsAt 8 difference).s
        z := difference &&& 0xFFFF == 0
        y := (flagsAt 8 difference).y
        h := (flagsAt 8 (a' ^^^ difference ^^^ b')).h
        x := (flagsAt 8 difference).x
        p := (b' ^^^ a') &&& (a' ^^^ difference) &&& 0x8000 != 0
        n := true
        c := (flagsAt 16 difference).c } }

end Alu
end Z80
