import Z80.Word

/-!
The flag register as eight truth values: sign, zero, bit 5 of a result,
half carry, bit 3 of a result, parity or overflow, subtraction and carry,
from the top bit of the byte down. The functions below give the flags that
depend on one result byte alone.
-/
namespace Z80

structure Flags where
  s : Bool := false
  z : Bool := false
  y : Bool := false
  h : Bool := false
  x : Bool := false
  p : Bool := false
  n : Bool := false
  c : Bool := false
deriving DecidableEq, Inhabited

namespace Flags

def toByte (f : Flags) : Byte :=
  BitVec.ofNat 8 <|
    128 * f.s.toNat + 64 * f.z.toNat + 32 * f.y.toNat + 16 * f.h.toNat +
      8 * f.x.toNat + 4 * f.p.toNat + 2 * f.n.toNat + f.c.toNat

def ofByte (b : Byte) : Flags where
  s := b.getLsbD 7
  z := b.getLsbD 6
  y := b.getLsbD 5
  h := b.getLsbD 4
  x := b.getLsbD 3
  p := b.getLsbD 2
  n := b.getLsbD 1
  c := b.getLsbD 0

@[simp] theorem ofByte_toByte (f : Flags) : ofByte (toByte f) = f := by
  rcases f with ⟨s, z, y, h, x, p, n, c⟩
  cases s <;> cases z <;> cases y <;> cases h <;>
    cases x <;> cases p <;> cases n <;> cases c <;> rfl

@[simp] theorem toByte_ofByte (b : Byte) : toByte (ofByte b) = b := by
  revert b
  decide +kernel

/-- Parity of a byte: true when the number of ones is even. -/
def evenParity (v : Byte) : Bool :=
  !(v.getLsbD 0 ^^ v.getLsbD 1 ^^ v.getLsbD 2 ^^ v.getLsbD 3 ^^
    v.getLsbD 4 ^^ v.getLsbD 5 ^^ v.getLsbD 6 ^^ v.getLsbD 7)

/-- Sign, zero and the two copied bits of a result. -/
def ofResult (v : Byte) : Flags where
  s := v.msb
  z := v == 0
  y := v.getLsbD 5
  x := v.getLsbD 3

/-- As `ofResult`, with the parity of the result. -/
def ofLogic (v : Byte) : Flags :=
  { ofResult v with p := evenParity v }

/-- As `ofResult` for a masked bit: a clear bit also sets parity. -/
def ofMasked (v : Byte) : Flags :=
  { ofResult v with p := v == 0 }

/-- Flags after an increment to `v`, the carry left out. -/
def ofIncrement (v : Byte) : Flags :=
  { ofResult v with
    p := v == 0x80
    h := v.setWidth 4 == 0x0#4 }

/-- Flags after a decrement to `v`, the carry left out. -/
def ofDecrement (v : Byte) : Flags :=
  { ofResult v with
    p := v == 0x7F
    h := v.setWidth 4 == 0xF#4
    n := true }

end Flags
end Z80
