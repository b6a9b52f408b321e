import Z80.Proofs.Carries

/-!
The flags of sums and differences are those of exact arithmetic. For bytes a
flag is looked up by the byte before, the result and the carry in: the operand
comes back as their difference, and a carry shows in the order of the two
bytes. For words the flags are bits of a sum or a difference of 32 bits and of
its exclusive or with the operands.
-/
namespace Z80

/-! Masks that keep one bit, or the bits below one. -/

theorem and_twoPow_bne_zero {n i : Nat} (hi : i < n) (v : BitVec n) :
    (v &&& BitVec.twoPow n i != 0) = v.getLsbD i := by
  have hne : BitVec.twoPow n i ≠ 0#n := fun h => by
    have hbit := congrArg (BitVec.getLsbD · i) h
    rw [BitVec.getLsbD_twoPow, BitVec.getLsbD_zero, decide_eq_true hi, decide_eq_true rfl] at hbit
    cases hbit
  rw [BitVec.and_twoPow]
  cases v.getLsbD i with
  | false => exact bne_self_eq_false _
  | true => exact bne_iff_ne.mpr hne

theorem and_0F_toNat (b : Byte) : (b &&& 0x0F).toNat = b.toNat % 16 :=
  Nat.and_two_pow_sub_one_eq_mod b.toNat 4

theorem and_FFFF_toNat (v : BitVec 32) : (v &&& 0xFFFF).toNat = v.toNat % 2 ^ 16 :=
  Nat.and_two_pow_sub_one_eq_mod v.toNat 16

/-- A bit of the low part of a number is a bit of the number. -/
theorem getLsbD_of_setWidth_eq {m n i : Nat} {v : BitVec m} {w : BitVec n} (h : v.setWidth n = w)
    (hi : i < n) : v.getLsbD i = w.getLsbD i := by
  rw [← h, BitVec.getLsbD_setWidth, decide_eq_true hi, Bool.true_and]

namespace Alu

section

variable {n : Nat} (a b : BitVec n) (carry : Bool)

/-- A sum that carries is not above its first operand. With a carry in it may
be equal to it. -/
theorem carries_eq_le_or_lt :
    carries n a b carry =
      if carry then decide (a + b + carryIn n carry ≤ a)
      else decide (a + b + carryIn n carry < a) := by
  have hbalance := sum_balance a b carry
  have hb := b.isLt
  have hlt := (a + b + carryIn n carry).isLt
  simp only [BitVec.le_def, BitVec.lt_def]
  generalize a + b + carryIn n carry = sum at *
  generalize carries n a b carry = out at *
  cases out <;> cases carry <;>
    simp only [Bool.toNat_false, Bool.toNat_true, Nat.mul_zero, Nat.mul_one] at hbalance <;>
      simp <;> omega

theorem borrows_eq_le_or_lt :
    borrows n a b carry =
      if carry then decide (a ≤ a - b - carryIn n carry)
      else decide (a < a - b - carryIn n carry) := by
  rw [borrows_eq_carries, carries_eq_le_or_lt, difference_add]

end

section

variable {n : Nat} {x y r : BitVec 32} (a b : BitVec n) (carry : Bool)

/-- The test for an overflow of a sum looks at the top bits alone, so numbers
that are wider do as well. -/
theorem overflows_sum_of_wide (hn : 0 < n) (hle : n ≤ 32) (hx : x.setWidth n = a)
    (hy : y.setWidth n = b) (hr : r.setWidth n = a + b + carryIn n carry) :
    ((y ^^^ x ^^^ BitVec.twoPow 32 (n - 1)) &&& (y ^^^ r) &&& BitVec.twoPow 32 (n - 1) != 0) =
      overflows n (a.toInt + b.toInt + carry.toNat) := by
  have hi : n - 1 < n := by omega
  rw [and_twoPow_bne_zero (by omega), overflows_sum a b carry hn]
  simp only [BitVec.getLsbD_and, BitVec.getLsbD_xor, BitVec.getLsbD_twoPow,
    getLsbD_of_setWidth_eq hx hi, getLsbD_of_setWidth_eq hy hi, getLsbD_of_setWidth_eq hr hi,
    ← BitVec.msb_eq_getLsbD_last, decide_eq_true (show n - 1 < 32 by omega)]
  cases a.msb <;> cases b.msb <;> simp

theorem overflows_difference_of_wide (hn : 0 < n) (hle : n ≤ 32) (hx : x.setWidth n = a)
    (hy : y.setWidth n = b) (hr : r.setWidth n = a - b - carryIn n carry) :
    ((y ^^^ x) &&& (x ^^^ r) &&& BitVec.twoPow 32 (n - 1) != 0) =
      overflows n (a.toInt - b.toInt - carry.toNat) := by
  have hi : n - 1 < n := by omega
  rw [and_twoPow_bne_zero (by omega), overflows_difference a b carry hn]
  simp only [BitVec.getLsbD_and, BitVec.getLsbD_xor,
    getLsbD_of_setWidth_eq hx hi, getLsbD_of_setWidth_eq hy hi, getLsbD_of_setWidth_eq hr hi,
    ← BitVec.msb_eq_getLsbD_last]
  cases a.msb <;> cases b.msb <;> simp

end

/-! Bytes -/

section

variable (a b : Byte) (carry : Bool)

theorem low_le_low_iff : (a &&& 0x0F) ≤ (b &&& 0x0F) ↔ a.setWidth 4 ≤ b.setWidth 4 := by
  rw [BitVec.le_def, BitVec.le_def, and_0F_toNat, and_0F_toNat, BitVec.toNat_setWidth,
    BitVec.toNat_setWidth]

theorem low_lt_low_iff : (a &&& 0x0F) < (b &&& 0x0F) ↔ a.setWidth 4 < b.setWidth 4 := by
  rw [← BitVec.not_le, ← BitVec.not_le, low_le_low_iff]

/-- The table of additions holds the flags of the exact sum, whatever operand
led from `a` to the result. -/
theorem addFlags_sum :
    addFlags a (a + b + carryIn 8 carry) carry =
      { Flags.ofResult (a + b + carryIn 8 carry) with
        h := carries 4 (a.setWidth 4) (b.setWidth 4) carry
        p := overflows 8 (a.toInt + b.toInt + carry.toNat)
        c := carries 8 a b carry } := by
  have hbefore : (a.setWidth 32).setWidth 8 = a := BitVec.setWidth_setWidth_of_le _ (by decide)
  have hafter : ((a + b + carryIn 8 carry).setWidth 32).setWidth 8 = a + b + carryIn 8 carry :=
    BitVec.setWidth_setWidth_of_le _ (by decide)
  have hoperand : ((a + b + carryIn 8 carry).setWidth 32 - a.setWidth 32 -
      carryIn 32 carry).setWidth 8 = b := by
    rw [setWidth_difference _ _ _ (by decide), hbefore, hafter]
    grind
  have hhalf := carries_eq_le_or_lt (a.setWidth 4) (b.setWidth 4) carry
  rw [← setWidth_sum a b carry (by decide)] at hhalf
  rw [← overflows_sum_of_wide a b carry (by decide) (by decide) hbefore hoperand hafter, hhalf,
    carries_eq_le_or_lt a]
  simp only [addFlags, low_le_low_iff, low_lt_low_iff]
  cases carry <;> rfl

/-- The table of subtractions holds the flags of the exact difference. -/
theorem subFlags_difference :
    subFlags a (a - b - carryIn 8 carry) carry =
      { Flags.ofResult (a - b - carryIn 8 carry) with
        h := borrows 4 (a.setWidth 4) (b.setWidth 4) carry
        p := overflows 8 (a.toInt - b.toInt - carry.toNat)
        n := true
        c := borrows 8 a b carry } := by
  have hbefore : (a.setWidth 32).setWidth 8 = a := BitVec.setWidth_setWidth_of_le _ (by decide)
  have hafter : ((a - b - carryIn 8 carry).setWidth 32).setWidth 8 = a - b - carryIn 8 carry :=
    BitVec.setWidth_setWidth_of_le _ (by decide)
  have hoperand : (a.setWidth 32 - (a - b - carryIn 8 carry).setWidth 32 -
      carryIn 32 carry).setWidth 8 = b := by
    rw [setWidth_difference _ _ _ (by decide), hbefore, hafter]
    grind
  have hhalf := borrows_eq_le_or_lt (a.setWidth 4) (b.setWidth 4) carry
  rw [← setWidth_difference a b carry (by decide)] at hhalf
  rw [← overflows_difference_of_wide a b carry (by decide) (by decide) hbefore hoperand hafter,
    hhalf, borrows_eq_le_or_lt a]
  simp only [subFlags, low_le_low_iff, low_lt_low_iff]
  cases carry <;> rfl

theorem add_eq :
    add a b carry =
      let value := a + b + carryIn 8 carry
      { value
        flags :=
          { Flags.ofResult value with
            h := carries 4 (a.setWidth 4) (b.setWidth 4) carry
            p := overflows 8 (a.toInt + b.toInt + carry.toNat)
            c := carries 8 a b carry } } :=
  congrArg (Result.mk _) (addFlags_sum a b carry)

theorem sub_eq :
    sub a b carry =
      let value := a - b - carryIn 8 carry
      { value
        flags :=
          { Flags.ofResult value with
            h := borrows 4 (a.setWidth 4) (b.setWidth 4) carry
            p := overflows 8 (a.toInt - b.toInt - carry.toNat)
            n := true
            c := borrows 8 a b carry } } :=
  congrArg (Result.mk _) (subFlags_difference a b carry)

theorem add_toNat :
    (add a b carry).value.toNat = (a.toNat + b.toNat + carry.toNat) % 256 :=
  sum_toNat a b carry

theorem add_balance :
    (add a b carry).value.toNat + 256 * (add a b carry).flags.c.toNat =
      a.toNat + b.toNat + carry.toNat := by
  rw [add_eq]
  exact sum_balance a b carry

theorem add_h_iff :
    (add a b carry).flags.h ↔ 16 ≤ a.toNat % 16 + b.toNat % 16 + carry.toNat := by
  rw [add_eq]
  exact decide_eq_true_iff

theorem add_c_iff : (add a b carry).flags.c ↔ 256 ≤ a.toNat + b.toNat + carry.toNat := by
  rw [add_eq]
  exact decide_eq_true_iff

theorem sub_balance :
    (sub a b carry).value.toNat + b.toNat + carry.toNat =
      a.toNat + 256 * (sub a b carry).flags.c.toNat := by
  rw [sub_eq]
  exact difference_balance a b carry

theorem sub_h_iff :
    (sub a b carry).flags.h ↔ a.toNat % 16 < b.toNat % 16 + carry.toNat := by
  rw [sub_eq]
  exact decide_eq_true_iff

theorem sub_c_iff : (sub a b carry).flags.c ↔ a.toNat < b.toNat + carry.toNat := by
  rw [sub_eq]
  exact decide_eq_true_iff

end

/-! Words -/

theorem flagsAt_eq (shift : Nat) (v : BitVec 32) :
    flagsAt shift v =
      { s := v.getLsbD (shift + 7)
        z := v.getLsbD (shift + 6)
        y := v.getLsbD (shift + 5)
        h := v.getLsbD (shift + 4)
        x := v.getLsbD (shift + 3)
        p := v.getLsbD (shift + 2)
        n := v.getLsbD (shift + 1)
        c := v.getLsbD shift } := by
  simp [flagsAt, Flags.ofByte]

section

variable (a b : Word) (f : Flags)

theorem setWidth_wide : (a.setWidth 32).setWidth 16 = a :=
  BitVec.setWidth_setWidth_of_le _ (by decide)

theorem setWidth_twelve : (a.setWidth 32).setWidth 12 = a.setWidth 12 :=
  BitVec.setWidth_setWidth_of_le _ (by decide)

/-- The bit above a word holds what is carried out of it, since the operands
have none there. -/
theorem getLsbD_sixteen (v : BitVec 32) :
    v.getLsbD 16 = (a.setWidth 32 ^^^ v ^^^ b.setWidth 32).getLsbD 16 := by
  have habove (w : Word) : (w.setWidth 32).getLsbD 16 = false := by
    rw [BitVec.getLsbD_setWidth, BitVec.getLsbD_of_ge w 16 le_rfl, Bool.and_false]
  rw [BitVec.getLsbD_xor, BitVec.getLsbD_xor, habove, habove, Bool.false_xor, Bool.xor_false]

theorem and_FFFF_beq_zero {v : BitVec 32} {w : Word} (h : v.setWidth 16 = w) :
    (v &&& 0xFFFF == 0) = (w == 0) := by
  rw [Bool.eq_iff_iff, beq_iff_eq, beq_iff_eq, ← BitVec.toNat_inj, ← BitVec.toNat_inj,
    and_FFFF_toNat, ← h, BitVec.toNat_setWidth]
  rfl

theorem adc16_eq :
    adc16 a b f =
      let value := a + b + carryIn 16 f.c
      { value
        flags :=
          { s := value.msb
            z := value == 0
            y := value.getLsbD 13
            h := carries 12 (a.setWidth 12) (b.setWidth 12) f.c
            x := value.getLsbD 11
            p := overflows 16 (a.toInt + b.toInt + f.c.toNat)
            n := false
            c := carries 16 a b f.c } } := by
  have hvalue : (a.setWidth 32 + b.setWidth 32 + carryIn 32 f.c).setWidth 16 =
      a + b + carryIn 16 f.c := by
    rw [setWidth_sum _ _ _ (by decide), setWidth_wide, setWidth_wide]
  have hhalf := getLsbD_xor_sum (a.setWidth 32) (b.setWidth 32) f.c (show 12 < 32 by decide)
  have hcarry := getLsbD_xor_sum (a.setWidth 32) (b.setWidth 32) f.c (show 16 < 32 by decide)
  rw [setWidth_twelve, setWidth_twelve] at hhalf
  rw [← getLsbD_sixteen, setWidth_wide, setWidth_wide] at hcarry
  have hoverflow := overflows_sum_of_wide a b f.c (by decide) (by decide) (setWidth_wide a)
    (setWidth_wide b) hvalue
  simp only [adc16, flagsAt_eq, hvalue, hhalf, hcarry, and_FFFF_beq_zero hvalue, ← hoverflow,
    BitVec.msb_eq_getLsbD_last, ← getLsbD_of_setWidth_eq hvalue (show 11 < 16 by decide),
    ← getLsbD_of_setWidth_eq hvalue (show 13 < 16 by decide),
    ← getLsbD_of_setWidth_eq hvalue (show 15 < 16 by decide)]
  rfl

theorem sbc16_eq :
    sbc16 a b f =
      let value := a - b - carryIn 16 f.c
      { value
        flags :=
          { s := value.msb
            z := value == 0
            y := value.getLsbD 13
            h := borrows 12 (a.setWidth 12) (b.setWidth 12) f.c
            x := value.getLsbD 11
            p := overflows 16 (a.toInt - b.toInt - f.c.toNat)
            n := true
            c := borrows 16 a b f.c } } := by
  have hvalue : (a.setWidth 32 - b.setWidth 32 - carryIn 32 f.c).setWidth 16 =
      a - b - carryIn 16 f.c := by
    rw [setWidth_difference _ _ _ (by decide), setWidth_wide, setWidth_wide]
  have hhalf :=
    getLsbD_xor_difference (a.setWidth 32) (b.setWidth 32) f.c (show 12 < 32 by decide)
  have hborrow :=
    getLsbD_xor_difference (a.setWidth 32) (b.setWidth 32) f.c (show 16 < 32 by decide)
  rw [setWidth_twelve, setWidth_twelve] at hhalf
  rw [← getLsbD_sixteen, setWidth_wide, setWidth_wide] at hborrow
  have hoverflow := overflows_difference_of_wide a b f.c (by decide) (by decide) (setWidth_wide a)
    (setWidth_wide b) hvalue
  simp only [sbc16, flagsAt_eq, hvalue, hhalf, hborrow, and_FFFF_beq_zero hvalue, ← hoverflow,
    BitVec.msb_eq_getLsbD_last, ← getLsbD_of_setWidth_eq hvalue (show 11 < 16 by decide),
    ← getLsbD_of_setWidth_eq hvalue (show 13 < 16 by decide),
    ← getLsbD_of_setWidth_eq hvalue (show 15 < 16 by decide)]
  rfl

/-- The plain addition is the one with no carry in, but for three flags. -/
theorem add16_eq :
    add16 a b f =
      let result := adc16 a b { f with c := false }
      { result with flags := { result.flags with s := f.s, z := f.z, p := f.p } } := by
  have hplain (v : BitVec 32) : v + carryIn 32 false = v := BitVec.add_zero v
  simp only [add16, adc16, hplain]

end

end Alu
end Z80
