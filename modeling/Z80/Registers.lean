import Z80.Flags

/-!
The register file. Register pairs and index registers are kept as their two
bytes; the word views are composed on demand, so writing one half leaves the
other alone. So does a write to the word that keeps the other half by a mask.
-/
namespace Z80

/-- After a reset the index registers hold `FFFF` and of the flags only zero
is set. -/
structure Registers where
  a : Byte := 0
  f : Flags := { z := true }
  b : Byte := 0
  c : Byte := 0
  d : Byte := 0
  e : Byte := 0
  h : Byte := 0
  l : Byte := 0
  a' : Byte := 0
  f' : Flags := {}
  b' : Byte := 0
  c' : Byte := 0
  d' : Byte := 0
  e' : Byte := 0
  h' : Byte := 0
  l' : Byte := 0
  ixh : Byte := 0xFF
  ixl : Byte := 0xFF
  iyh : Byte := 0xFF
  iyl : Byte := 0xFF
  sp : Word := 0
  pc : Word := 0
  /-- High byte of the vector table of interrupt mode 2. -/
  i : Byte := 0
  /-- The refresh counter. Only its low seven bits count. -/
  r : Byte := 0
  /-- The address latch, seen only in bits 5 and 3 of the flags. -/
  wz : Word := 0
  /-- Where the current instruction starts. -/
  prepc : Word := 0
  iff1 : Bool := false
  iff2 : Bool := false
  im : Byte := 0
  halted : Bool := false
deriving DecidableEq, Inhabited

namespace Registers

def af (r : Registers) : Word := Word.ofBytes r.a r.f.toByte
def bc (r : Registers) : Word := Word.ofBytes r.b r.c
def de (r : Registers) : Word := Word.ofBytes r.d r.e
def hl (r : Registers) : Word := Word.ofBytes r.h r.l
def af' (r : Registers) : Word := Word.ofBytes r.a' r.f'.toByte
def bc' (r : Registers) : Word := Word.ofBytes r.b' r.c'
def de' (r : Registers) : Word := Word.ofBytes r.d' r.e'
def hl' (r : Registers) : Word := Word.ofBytes r.h' r.l'
def ix (r : Registers) : Word := Word.ofBytes r.ixh r.ixl
def iy (r : Registers) : Word := Word.ofBytes r.iyh r.iyl

def setAF (w : Word) (r : Registers) : Registers :=
  { r with a := w.high, f := Flags.ofByte w.low }

def setBC (w : Word) (r : Registers) : Registers :=
  { r with b := w.high, c := w.low }

def setDE (w : Word) (r : Registers) : Registers :=
  { r with d := w.high, e := w.low }

def setHL (w : Word) (r : Registers) : Registers :=
  { r with h := w.high, l := w.low }

def setAF' (w : Word) (r : Registers) : Registers :=
  { r with a' := w.high, f' := Flags.ofByte w.low }

def setBC' (w : Word) (r : Registers) : Registers :=
  { r with b' := w.high, c' := w.low }

def setDE' (w : Word) (r : Registers) : Registers :=
  { r with d' := w.high, e' := w.low }

def setHL' (w : Word) (r : Registers) : Registers :=
  { r with h' := w.high, l' := w.low }

def setIX (w : Word) (r : Registers) : Registers :=
  { r with ixh := w.high, ixl := w.low }

def setIY (w : Word) (r : Registers) : Registers :=
  { r with iyh := w.high, iyl := w.low }

/-- The exchange `EX AF,AF'`. -/
def swapAF (r : Registers) : Registers :=
  { r with a := r.a', f := r.f', a' := r.a, f' := r.f }

/-- The exchange `EXX` of the three pairs. -/
def exx (r : Registers) : Registers :=
  { r with
    b := r.b', c := r.c', d := r.d', e := r.e', h := r.h', l := r.l'
    b' := r.b, c' := r.c, d' := r.d, e' := r.e, h' := r.h, l' := r.l }

/-- The exchange `EX DE,HL`. -/
def swapDEHL (r : Registers) : Registers :=
  { r with d := r.h, e := r.l, h := r.d, l := r.e }

/-- Counts `n` refresh cycles. Bit 7 stays as it was loaded. -/
def refresh (n : Nat) (r : Registers) : Registers :=
  { r with r := BitVec.ofBool r.r.msb ++ (r.r.setWidth 7 + BitVec.ofNat 7 n) }

section

variable (w : Word) (r : Registers)

@[simp] theorem bc_setBC : (r.setBC w).bc = w := Word.ofBytes_high_low w
@[simp] theorem de_setDE : (r.setDE w).de = w := Word.ofBytes_high_low w
@[simp] theorem hl_setHL : (r.setHL w).hl = w := Word.ofBytes_high_low w
@[simp] theorem bc'_setBC' : (r.setBC' w).bc' = w := Word.ofBytes_high_low w
@[simp] theorem de'_setDE' : (r.setDE' w).de' = w := Word.ofBytes_high_low w
@[simp] theorem hl'_setHL' : (r.setHL' w).hl' = w := Word.ofBytes_high_low w
@[simp] theorem ix_setIX : (r.setIX w).ix = w := Word.ofBytes_high_low w
@[simp] theorem iy_setIY : (r.setIY w).iy = w := Word.ofBytes_high_low w

@[simp] theorem af_setAF : (r.setAF w).af = w := by
  simp [af, setAF]

@[simp] theorem af'_setAF' : (r.setAF' w).af' = w := by
  simp [af', setAF']

end

/-! A half of an index register, written through a mask, is the byte of that half. -/

section

variable (b : Byte) (r : Registers)

theorem setIX_withHigh : r.setIX (r.ix.withHigh b) = { r with ixh := b } := by
  simp [ix, setIX]

theorem setIX_withLow : r.setIX (r.ix.withLow b) = { r with ixl := b } := by
  simp [ix, setIX]

theorem setIY_withHigh : r.setIY (r.iy.withHigh b) = { r with iyh := b } := by
  simp [iy, setIY]

theorem setIY_withLow : r.setIY (r.iy.withLow b) = { r with iyl := b } := by
  simp [iy, setIY]

end

private theorem msb_ofBool_append (b : Bool) (w : BitVec 7) :
    (BitVec.ofBool b ++ w : Byte).msb = b := by
  revert b w
  decide +kernel

private theorem setWidth_ofBool_append (b : Bool) (w : BitVec 7) :
    (BitVec.ofBool b ++ w : Byte).setWidth 7 = w := by
  revert b w
  decide +kernel

private theorem ofBool_msb_append_setWidth (v : Byte) :
    (BitVec.ofBool v.msb ++ v.setWidth 7 : Byte) = v := by
  revert v
  decide +kernel

@[simp] theorem refresh_zero (r : Registers) : refresh 0 r = r := by
  simp [refresh, ofBool_msb_append_setWidth]

@[simp] theorem msb_refresh (n : Nat) (r : Registers) : (refresh n r).r.msb = r.r.msb :=
  msb_ofBool_append ..

/-- The refresh counter as a number: bit 7 is kept, and the low seven bits count
on modulo 128. -/
theorem refresh_r_toNat (n : Nat) (r : Registers) :
    (refresh n r).r.toNat = 128 * (r.r.toNat / 128) + (r.r.toNat + n) % 128 := by
  have hmsb : r.r.msb.toNat = r.r.toNat / 128 := by
    have hlt := r.r.isLt
    rw [BitVec.msb_eq_decide]
    by_cases h : 2 ^ (8 - 1) ≤ r.r.toNat
    · rw [decide_eq_true h, Bool.toNat_true]
      omega
    · rw [decide_eq_false h, Bool.toNat_false]
      omega
  have hlow : (r.r.setWidth 7 + BitVec.ofNat 7 n).toNat = (r.r.toNat + n) % 128 := by
    rw [BitVec.toNat_add, BitVec.toNat_setWidth, BitVec.toNat_ofNat, Nat.mod_add_mod,
      Nat.add_mod_mod]
  have hsplit : (refresh n r).r.toNat =
      (BitVec.ofBool r.r.msb).toNat <<< 7 ||| (r.r.setWidth 7 + BitVec.ofNat 7 n).toNat :=
    BitVec.toNat_append _ _
  rw [hsplit, ← Nat.shiftLeft_add_eq_or_of_lt (BitVec.isLt _), Nat.shiftLeft_eq, Nat.mul_comm,
    BitVec.toNat_ofBool, hmsb, hlow]

theorem refresh_refresh (a b : Nat) (r : Registers) :
    refresh b (refresh a r) = refresh (a + b) r := by
  simp only [refresh, msb_ofBool_append, setWidth_ofBool_append, BitVec.add_assoc,
    BitVec.ofNat_add]

@[simp] theorem swapAF_swapAF (r : Registers) : r.swapAF.swapAF = r := rfl

@[simp] theorem exx_exx (r : Registers) : r.exx.exx = r := rfl

@[simp] theorem swapDEHL_swapDEHL (r : Registers) : r.swapDEHL.swapDEHL = r := rfl

end Registers
end Z80
