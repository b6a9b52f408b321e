import Mathlib.Algebra.Order.Ring.Int
import Mathlib.Algebra.Order.Ring.Nat
import Z80.Alu

/-!
Carries and borrows as numbers. The value of an addition and its carry are
the exact sum taken apart, so an addition of any width may be cut in two at
any bit, the low part handing its carry to the high part. A subtraction is
an addition read backwards. Overflow is a matter of the high part alone, and
of its top bits.
-/
namespace Z80.Alu

/-- The exact sum of two operands and a carry does not fit in `n` bits. -/
def carries (n : Nat) (a b : BitVec n) (carry : Bool) : Bool :=
  Nat.pow 2 n ≤ a.toNat + b.toNat + carry.toNat

/-- The exact difference of two operands and a borrow is negative. -/
def borrows (n : Nat) (a b : BitVec n) (carry : Bool) : Bool :=
  a.toNat < b.toNat + carry.toNat

/-- A signed number lies outside the range of `n` bits. -/
def overflows (n : Nat) (i : Int) : Bool :=
  i < -Int.pow 2 (n - 1) || Int.pow 2 (n - 1) ≤ i

private theorem eq_of_toNat_eq : ∀ {x y : Bool}, x.toNat = y.toNat → x = y := by
  decide

/-- Only the quotient decides on which side of a multiple a number lies. -/
theorem mul_add_lt_mul_iff {radix q r t : Int} (hr : 0 ≤ r) (hlt : r < radix) :
    radix * q + r < radix * t ↔ q < t := by
  have hpos : 0 < radix := by omega
  have hquot : (radix * q + r) / radix = q := by
    rw [Int.mul_add_ediv_left _ _ hpos.ne', Int.ediv_eq_zero_of_lt hr hlt, Int.add_zero]
  rw [Int.mul_comm radix t, ← Int.ediv_lt_iff_lt_mul hpos, hquot]

theorem overflows_iff {n : Nat} {i : Int} :
    overflows n i ↔ i < -2 ^ (n - 1) ∨ (2 : Int) ^ (n - 1) ≤ i := by
  have hdef : overflows n i =
      (decide (i < -2 ^ (n - 1)) || decide ((2 : Int) ^ (n - 1) ≤ i)) := rfl
  rw [hdef, Bool.or_eq_true, decide_eq_true_iff, decide_eq_true_iff]

theorem overflows_mul_add {n k : Nat} (hn : 0 < n) {i r : Int} (hr : 0 ≤ r) (hlt : r < 2 ^ k) :
    overflows (n + k) (2 ^ k * i + r) = overflows n i := by
  have hpow : (2 : Int) ^ (n + k - 1) = 2 ^ k * 2 ^ (n - 1) := by
    rw [← pow_add]
    congr 1
    omega
  rw [Bool.eq_iff_iff, overflows_iff, overflows_iff, hpow, ← mul_neg, mul_add_lt_mul_iff hr hlt,
    ← not_lt, ← not_lt, mul_add_lt_mul_iff hr hlt]

section

variable {n : Nat} (a b : BitVec n) (carry : Bool)

theorem carries_toNat :
    (carries n a b carry).toNat = (a.toNat + b.toNat + carry.toNat) / 2 ^ n := by
  have ha := a.isLt
  have hb := b.isLt
  have hc := carry.toNat_le
  have hdef : carries n a b carry = decide (2 ^ n ≤ a.toNat + b.toNat + carry.toNat) := rfl
  rw [hdef]
  by_cases h : 2 ^ n ≤ a.toNat + b.toNat + carry.toNat
  · rw [decide_eq_true h, Bool.toNat_true, Nat.div_eq_of_lt_le] <;> omega
  · rw [decide_eq_false h, Nat.div_eq_of_lt (Nat.not_le.mp h)]
    rfl

theorem sum_toNat :
    (a + b + carryIn n carry).toNat = (a.toNat + b.toNat + carry.toNat) % 2 ^ n := by
  simp only [carryIn, BitVec.toNat_add, BitVec.toNat_ofNat, Nat.add_mod_mod, Nat.mod_add_mod]

/-- A sum and its carry together are the exact sum. -/
theorem sum_balance :
    (a + b + carryIn n carry).toNat + 2 ^ n * (carries n a b carry).toNat =
      a.toNat + b.toNat + carry.toNat := by
  rw [sum_toNat, carries_toNat, Nat.mod_add_div]

theorem difference_add : a - b - carryIn n carry + b + carryIn n carry = a := by
  rw [BitVec.add_assoc, BitVec.add_comm b, ← BitVec.add_assoc, BitVec.sub_add_cancel,
    BitVec.sub_add_cancel]

/-- The borrow of a difference is the carry of the sum that undoes it. -/
theorem borrows_eq_carries :
    borrows n a b carry = carries n (a - b - carryIn n carry) b carry := by
  have hbalance := sum_balance (a - b - carryIn n carry) b carry
  have hlt := (a - b - carryIn n carry).isLt
  have hdef : borrows n a b carry = decide (a.toNat < b.toNat + carry.toNat) := rfl
  rw [difference_add] at hbalance
  rw [hdef]
  cases hcarry : carries n (a - b - carryIn n carry) b carry with
  | false =>
      rw [hcarry, Bool.toNat_false, Nat.mul_zero] at hbalance
      exact decide_eq_false (by omega)
  | true =>
      rw [hcarry, Bool.toNat_true, Nat.mul_one] at hbalance
      exact decide_eq_true (by omega)

/-- A difference falls short of the exact one by what was borrowed. -/
theorem difference_balance :
    (a - b - carryIn n carry).toNat + b.toNat + carry.toNat =
      a.toNat + 2 ^ n * (borrows n a b carry).toNat := by
  rw [borrows_eq_carries, ← sum_balance, difference_add]

end

/-! The carries in the bits of a sum, and what the top bits tell of an overflow. -/

section

variable {n i : Nat} (a b : BitVec n) (carry : Bool)

theorem carryIn_eq (n : Nat) (carry : Bool) :
    carryIn n carry = (BitVec.ofBool carry).setWidth n := by
  apply BitVec.eq_of_toNat_eq
  cases carry <;> simp [carryIn]

theorem setWidth_carryIn (hi : i ≤ n) : (carryIn n carry).setWidth i = carryIn i carry := by
  apply BitVec.eq_of_toNat_eq
  simp only [carryIn, BitVec.toNat_setWidth, BitVec.toNat_ofNat]
  exact Nat.mod_mod_of_dvd _ (Nat.pow_dvd_pow 2 hi)

theorem setWidth_sum (hi : i ≤ n) :
    (a + b + carryIn n carry).setWidth i = a.setWidth i + b.setWidth i + carryIn i carry := by
  rw [BitVec.setWidth_add _ _ hi, BitVec.setWidth_add _ _ hi, setWidth_carryIn carry hi]

theorem setWidth_difference (hi : i ≤ n) :
    (a - b - carryIn n carry).setWidth i = a.setWidth i - b.setWidth i - carryIn i carry := by
  have hsum := setWidth_sum (a - b - carryIn n carry) b carry hi
  rw [difference_add] at hsum
  generalize (a - b - carryIn n carry).setWidth i = d at hsum ⊢
  rw [hsum, BitVec.sub_sub, BitVec.add_assoc, BitVec.add_sub_cancel]

/-- A sum and the exclusive or of its operands differ in the bits that a carry
comes into. -/
theorem getLsbD_xor_sum (hi : i < n) :
    (a ^^^ (a + b + carryIn n carry) ^^^ b).getLsbD i =
      carries i (a.setWidth i) (b.setWidth i) carry := by
  have hcarry : carries i (a.setWidth i) (b.setWidth i) carry = BitVec.carry i a b carry := by
    simp only [carries, BitVec.carry, BitVec.toNat_setWidth]
    rfl
  rw [hcarry, carryIn_eq, BitVec.getLsbD_xor, BitVec.getLsbD_xor, BitVec.getLsbD_add_add_bool hi]
  cases a.getLsbD i <;> cases b.getLsbD i <;> simp

theorem getLsbD_xor_difference (hi : i < n) :
    (a ^^^ (a - b - carryIn n carry) ^^^ b).getLsbD i =
      borrows i (a.setWidth i) (b.setWidth i) carry := by
  have hsum := getLsbD_xor_sum (a - b - carryIn n carry) b carry hi
  rw [difference_add, setWidth_difference a b carry hi.le, ← borrows_eq_carries] at hsum
  rw [← hsum, BitVec.xor_comm a]

theorem overflows_iff_natCast {n : Nat} {i : Int} :
    overflows n i ↔ i < -(2 ^ (n - 1) : Nat) ∨ ((2 ^ (n - 1) : Nat) : Int) ≤ i := by
  rw [overflows_iff]
  push_cast
  rfl

/-- The top bit of a number, and what it is worth with a sign. -/
theorem msb_cases (hn : 0 < n) (x : BitVec n) :
    x.msb = false ∧ x.toInt = x.toNat ∧ x.toNat < 2 ^ (n - 1) ∨
      x.msb = true ∧ x.toInt = x.toNat - 2 * ((2 ^ (n - 1) : Nat) : Int) ∧
        2 ^ (n - 1) ≤ x.toNat ∧ x.toNat < 2 * 2 ^ (n - 1) := by
  have hmsb := x.msb_eq_decide
  have htoInt := x.toInt_eq_msb_cond
  have hlt := x.isLt
  rw [← Nat.two_pow_pred_mul_two hn] at htoInt hlt
  generalize 2 ^ (n - 1) = half at *
  by_cases h : half ≤ x.toNat
  · rw [decide_eq_true h] at hmsb
    rw [hmsb, if_pos rfl] at htoInt
    exact .inr ⟨hmsb, by omega, h, by omega⟩
  · rw [decide_eq_false h] at hmsb
    rw [hmsb, if_neg Bool.false_ne_true] at htoInt
    exact .inl ⟨hmsb, htoInt, Nat.not_le.mp h⟩

/-- A sum overflows if and only if its sign is that of neither operand. -/
theorem overflows_sum (hn : 0 < n) :
    overflows n (a.toInt + b.toInt + carry.toNat) =
      (a.msb == b.msb && b.msb != (a + b + carryIn n carry).msb) := by
  have hbalance := sum_balance a b carry
  have hc := carry.toNat_le
  have ha := msb_cases hn a
  have hb := msb_cases hn b
  have hsum := msb_cases hn (a + b + carryIn n carry)
  rw [← Nat.two_pow_pred_mul_two hn] at hbalance
  rw [Bool.eq_iff_iff, overflows_iff_natCast]
  generalize a + b + carryIn n carry = sum at *
  generalize carries n a b carry = out at hbalance
  generalize 2 ^ (n - 1) = half at *
  obtain ⟨ha, ha', ha''⟩ | ⟨ha, ha', ha''⟩ := ha <;>
    obtain ⟨hb, hb', hb''⟩ | ⟨hb, hb', hb''⟩ := hb <;>
      obtain ⟨hs, hs', hs''⟩ | ⟨hs, hs', hs''⟩ := hsum <;>
        rw [ha, hb, hs] <;> cases out <;>
          simp only [Bool.toNat_false, Bool.toNat_true, Nat.mul_zero, Nat.mul_one] at hbalance <;>
            simp <;> omega

/-- A difference overflows if and only if the operands are of different signs and the sign
of the first is lost. -/
theorem overflows_difference (hn : 0 < n) :
    overflows n (a.toInt - b.toInt - carry.toNat) =
      (a.msb != b.msb && a.msb != (a - b - carryIn n carry).msb) := by
  have hbalance := difference_balance a b carry
  have hc := carry.toNat_le
  have ha := msb_cases hn a
  have hb := msb_cases hn b
  have hdifference := msb_cases hn (a - b - carryIn n carry)
  rw [← Nat.two_pow_pred_mul_two hn] at hbalance
  rw [Bool.eq_iff_iff, overflows_iff_natCast]
  generalize a - b - carryIn n carry = difference at *
  generalize borrows n a b carry = out at hbalance
  generalize 2 ^ (n - 1) = half at *
  obtain ⟨ha, ha', ha''⟩ | ⟨ha, ha', ha''⟩ := ha <;>
    obtain ⟨hb, hb', hb''⟩ | ⟨hb, hb', hb''⟩ := hb <;>
      obtain ⟨hd, hd', hd''⟩ | ⟨hd, hd', hd''⟩ := hdifference <;>
        rw [ha, hb, hd] <;> cases out <;>
          simp only [Bool.toNat_false, Bool.toNat_true, Nat.mul_zero, Nat.mul_one] at hbalance <;>
            simp <;> omega

end

section

variable {n k : Nat} (high high' : BitVec n) (low low' : BitVec k) (carry : Bool)

theorem append_toNat : (high ++ low).toNat = 2 ^ k * high.toNat + low.toNat := by
  rw [BitVec.toNat_append, ← Nat.shiftLeft_add_eq_or_of_lt low.isLt, Nat.shiftLeft_eq,
    Nat.mul_comm]

theorem append_sum_toNat :
    (high ++ low).toNat + (high' ++ low').toNat + carry.toNat =
      2 ^ k * (high.toNat + high'.toNat) + (low.toNat + low'.toNat + carry.toNat) := by
  rw [append_toNat, append_toNat, Nat.mul_add]
  omega

/-- The quotient of a sum by the low part holds the carry of that part. -/
theorem append_sum_div :
    ((high ++ low).toNat + (high' ++ low').toNat + carry.toNat) / 2 ^ k =
      high.toNat + high'.toNat + (carries k low low' carry).toNat := by
  rw [append_sum_toNat, Nat.mul_add_div (Nat.two_pow_pos k), carries_toNat]

theorem carries_append :
    carries (n + k) (high ++ low) (high' ++ low') carry =
      carries n high high' (carries k low low' carry) := by
  apply eq_of_toNat_eq
  rw [carries_toNat, Nat.pow_add, Nat.mul_comm, ← Nat.div_div_eq_div_mul, append_sum_div,
    carries_toNat high]

theorem sum_append :
    (high ++ low) + (high' ++ low') + carryIn (n + k) carry =
      (high + high' + carryIn n (carries k low low' carry)) ++
        (low + low' + carryIn k carry) := by
  apply BitVec.eq_of_toNat_eq
  rw [sum_toNat, Nat.pow_add, Nat.mul_comm, Nat.mod_mul, append_sum_div, append_sum_toNat,
    Nat.mul_add_mod, append_toNat, sum_toNat, sum_toNat, Nat.add_comm]

theorem difference_append :
    (high ++ low) - (high' ++ low') - carryIn (n + k) carry =
      (high - high' - carryIn n (borrows k low low' carry)) ++
        (low - low' - carryIn k carry) := by
  have hsum := sum_append (high - high' - carryIn n (borrows k low low' carry)) high'
    (low - low' - carryIn k carry) low' carry
  rw [← borrows_eq_carries, difference_add, difference_add] at hsum
  rw [← hsum, BitVec.sub_sub, BitVec.add_assoc, BitVec.add_sub_cancel]

theorem borrows_append :
    borrows (n + k) (high ++ low) (high' ++ low') carry =
      borrows n high high' (borrows k low low' carry) := by
  rw [borrows_eq_carries, difference_append, carries_append, ← borrows_eq_carries,
    ← borrows_eq_carries]

variable (hn : 0 < n)
include hn

theorem append_toInt : (high ++ low).toInt = 2 ^ k * high.toInt + low.toNat := by
  rw [BitVec.toInt_append, if_neg (by simpa using hn.ne')]

theorem overflows_sum_append :
    overflows (n + k) ((high ++ low).toInt + (high' ++ low').toInt + carry.toNat) =
      overflows n (high.toInt + high'.toInt + (carries k low low' carry).toNat) := by
  have hbalance := congrArg Int.ofNat (sum_balance low low' carry)
  have hlt := (low + low' + carryIn k carry).isLt
  rw [← overflows_mul_add hn (Int.natCast_nonneg _) (Int.ofNat_lt.mpr hlt), append_toInt _ _ hn,
    append_toInt _ _ hn]
  congr 1
  simp only [Int.ofNat_eq_natCast, mul_add] at hbalance ⊢
  push_cast at hbalance ⊢
  omega

theorem overflows_difference_append :
    overflows (n + k) ((high ++ low).toInt - (high' ++ low').toInt - carry.toNat) =
      overflows n (high.toInt - high'.toInt - (borrows k low low' carry).toNat) := by
  have hbalance := congrArg Int.ofNat (difference_balance low low' carry)
  have hlt := (low - low' - carryIn k carry).isLt
  rw [← overflows_mul_add hn (Int.natCast_nonneg _) (Int.ofNat_lt.mpr hlt), append_toInt _ _ hn,
    append_toInt _ _ hn]
  congr 1
  simp only [Int.ofNat_eq_natCast, mul_sub] at hbalance ⊢
  push_cast at hbalance ⊢
  omega

end

end Z80.Alu
