import Z80.Proofs.Ripple

/-!
Decimal arithmetic. A byte holds two decimal digits, and the decimal
adjustment after an addition or a subtraction puts right what the binary
operation did to them. One adjusted byte keeps the balance of a digit of radix
100, and so a run along many bytes does.
-/
namespace Z80

namespace Byte

/-- Both digits are decimal. -/
def IsDecimal (b : Byte) : Prop :=
  b.highDigit.toNat ≤ 9 ∧ b.lowDigit.toNat ≤ 9

instance : DecidablePred IsDecimal :=
  fun b => inferInstanceAs (Decidable (b.highDigit.toNat ≤ 9 ∧ b.lowDigit.toNat ≤ 9))

/-- The number from 0 to 99 that two decimal digits stand for. -/
def decimal (b : Byte) : Nat :=
  10 * b.highDigit.toNat + b.lowDigit.toNat

theorem highDigit_toNat (b : Byte) : b.highDigit.toNat = b.toNat / 16 := by
  have hb := b.isLt
  rw [highDigit, BitVec.extractLsb'_toNat, Nat.shiftRight_eq_div_pow]
  omega

theorem lowDigit_toNat (b : Byte) : b.lowDigit.toNat = b.toNat % 16 := by
  rw [lowDigit, BitVec.extractLsb'_toNat, Nat.shiftRight_zero]

theorem isDecimal_iff {b : Byte} : b.IsDecimal ↔ b.toNat / 16 ≤ 9 ∧ b.toNat % 16 ≤ 9 := by
  rw [IsDecimal, highDigit_toNat, lowDigit_toNat]

theorem decimal_eq (b : Byte) : b.decimal = 10 * (b.toNat / 16) + b.toNat % 16 := by
  rw [decimal, highDigit_toNat, lowDigit_toNat]

end Byte

/-- The number that bytes stand for, each of two decimal digits, the lowest
byte first. -/
def decimal (bytes : List Byte) : Nat :=
  number 100 Byte.decimal bytes

/-- An operation on the accumulator with the decimal adjustment after it. -/
def AluOp.adjusted (op : AluOp) (a b : Byte) (f : Flags) : Result 8 :=
  let result := op.apply a b f
  Alu.daa result.value result.flags

namespace Alu

/-- The low digit is put right. -/
def fixesLow (a : Byte) (f : Flags) : Bool :=
  f.h || 9 < a.toNat % 16

/-- The high digit is put right, which is also the carry of the adjustment. -/
def fixesHigh (a : Byte) (f : Flags) : Bool :=
  f.c || 0x99 < a.toNat

theorem shiftRight_four_toNat (a : Byte) : (a >>> 4).toNat = a.toNat / 16 := by
  rw [BitVec.toNat_ushiftRight, Nat.shiftRight_eq_div_pow]

/-- The high digit tells that a byte is above `99`, and a nine there does only
with a low digit above nine. -/
theorem above_99_iff (a : Byte) :
    0x99 < a.toNat ↔
      if a.toNat % 16 ≤ 9 then 10 ≤ a.toNat / 16 else 9 ≤ a.toNat / 16 := by
  split <;> omega

theorem daa_flags_c (a : Byte) (f : Flags) : (daa a f).flags.c = fixesHigh a f := by
  simp only [daa, fixesHigh, BitVec.le_def, and_0F_toNat, shiftRight_four_toNat, above_99_iff]
  by_cases h : a.toNat % 16 ≤ 9 <;> simp [h]

/-- Each of the two digits is put right on its own, though the correction
looks at them together. -/
theorem correction_eq (a : Byte) (f : Flags) :
    correction a f =
      (if fixesLow a f then 0x06 else 0) + (if fixesHigh a f then 0x60 else 0) := by
  simp only [correction, fixesLow, fixesHigh, BitVec.le_def, and_0F_toNat, shiftRight_four_toNat,
    above_99_iff, BitVec.reduceToNat]
  by_cases hc : f.c
  · grind
  · grind

theorem fix_toNat (low high : Bool) :
    ((if low then 0x06 else 0) + (if high then 0x60 else 0) : Byte).toNat =
      0x06 * low.toNat + 0x60 * high.toNat := by
  cases low <;> cases high <;> rfl

theorem daa_toNat_of_add {a : Byte} {f : Flags} (hn : f.n = false) :
    (daa a f).value.toNat =
      (a.toNat + (0x06 * (fixesLow a f).toNat + 0x60 * (fixesHigh a f).toNat)) % 256 := by
  rw [← fix_toNat, ← correction_eq, ← BitVec.toNat_add]
  simp only [daa, hn]
  rfl

theorem daa_toNat_of_sub {a : Byte} {f : Flags} (hn : f.n = true) :
    (daa a f).value.toNat =
      (256 - (0x06 * (fixesLow a f).toNat + 0x60 * (fixesHigh a f).toNat) + a.toNat) % 256 := by
  rw [← fix_toNat, ← correction_eq]
  simp only [daa, hn, if_true, BitVec.toNat_sub]

/-- The two values of a condition, for arithmetic. -/
theorem toNat_cases {c : Bool} {p : Prop} (h : c ↔ p) :
    p ∧ c.toNat = 1 ∨ ¬p ∧ c.toNat = 0 := by
  cases c with
  | false => exact .inr ⟨fun hp => Bool.false_ne_true (h.mpr hp), rfl⟩
  | true => exact .inl ⟨h.mp rfl, rfl⟩

section

variable {a b : Byte} (f : Flags)

theorem fixesLow_add :
    fixesLow (add a b f.c).value (add a b f.c).flags ↔
      9 < a.toNat % 16 + b.toNat % 16 + f.c.toNat := by
  have hc := f.c.toNat_le
  rw [fixesLow, Bool.or_eq_true, add_h_iff, decide_eq_true_iff, add_toNat]
  omega

variable (ha : a.IsDecimal) (hb : b.IsDecimal)
include ha hb

theorem fixesHigh_add :
    fixesHigh (add a b f.c).value (add a b f.c).flags ↔
      99 < a.decimal + b.decimal + f.c.toNat := by
  have hc := f.c.toNat_le
  rw [Byte.isDecimal_iff] at ha hb
  rw [fixesHigh, Bool.or_eq_true, add_c_iff, decide_eq_true_iff, add_toNat, a.decimal_eq,
    b.decimal_eq]
  omega

/-- An adjusted sum in binary. A digit that carries leaves out the six codes
that stand for no decimal digit. -/
theorem adjusted_adc_toNat :
    let result := AluOp.adc.adjusted a b f
    result.value.toNat + 0xA0 * result.flags.c.toNat =
      a.toNat + b.toNat + f.c.toNat +
        0x06 * (fixesLow (add a b f.c).value (add a b f.c).flags).toNat := by
  intro result
  have hc := f.c.toNat_le
  have hlow := toNat_cases (fixesLow_add (a := a) (b := b) f)
  have hhigh := toNat_cases (fixesHigh_add f ha hb)
  have hvalue : result.value = (daa (add a b f.c).value (add a b f.c).flags).value := rfl
  have hcarry : result.flags.c = fixesHigh (add a b f.c).value (add a b f.c).flags :=
    daa_flags_c _ _
  rw [Byte.isDecimal_iff] at ha hb
  rw [a.decimal_eq, b.decimal_eq] at hhigh
  rw [hvalue, hcarry, daa_toNat_of_add rfl, add_toNat, Nat.mod_add_mod]
  omega

theorem adjusted_adc :
    let result := AluOp.adc.adjusted a b f
    Byte.IsDecimal result.value ∧
      Byte.decimal result.value + 100 * result.flags.c.toNat =
        a.decimal + b.decimal + f.c.toNat := by
  intro result
  have hc := f.c.toNat_le
  have hlow := toNat_cases (fixesLow_add (a := a) (b := b) f)
  have hcarry : result.flags.c = fixesHigh (add a b f.c).value (add a b f.c).flags :=
    daa_flags_c _ _
  have hhigh := toNat_cases (fixesHigh_add f ha hb)
  rw [← hcarry] at hhigh
  have hvalue : result.value.toNat + 0xA0 * result.flags.c.toNat = _ := adjusted_adc_toNat f ha hb
  rw [Byte.isDecimal_iff] at ha hb ⊢
  rw [a.decimal_eq, b.decimal_eq] at hhigh ⊢
  rw [Byte.decimal_eq]
  omega

theorem fixesLow_sub :
    fixesLow (sub a b f.c).value (sub a b f.c).flags ↔
      a.toNat % 16 < b.toNat % 16 + f.c.toNat := by
  have hvalue := sub_balance a b f.c
  rw [Byte.isDecimal_iff] at ha hb
  rw [fixesLow, Bool.or_eq_true, sub_h_iff, decide_eq_true_iff]
  omega

theorem fixesHigh_sub :
    fixesHigh (sub a b f.c).value (sub a b f.c).flags ↔
      a.decimal < b.decimal + f.c.toNat := by
  have hc := f.c.toNat_le
  have hvalue := sub_balance a b f.c
  have hborrow := toNat_cases (sub_c_iff a b f.c)
  rw [Byte.isDecimal_iff] at ha hb
  rw [fixesHigh, Bool.or_eq_true, sub_c_iff, decide_eq_true_iff, a.decimal_eq, b.decimal_eq]
  omega

/-- An adjusted difference in binary. A digit that borrows leaves out the six
codes that stand for no decimal digit. -/
theorem adjusted_sbc_toNat :
    let result := AluOp.sbc.adjusted a b f
    result.value.toNat + 0x06 * (fixesLow (sub a b f.c).value (sub a b f.c).flags).toNat +
        b.toNat + f.c.toNat =
      a.toNat + 0xA0 * result.flags.c.toNat := by
  intro result
  have hc := f.c.toNat_le
  have hlow := toNat_cases (fixesLow_sub f ha hb)
  have hhigh := toNat_cases (fixesHigh_sub f ha hb)
  have hborrow := toNat_cases (sub_c_iff a b f.c)
  have hdifference := sub_balance a b f.c
  have hvalue : result.value = (daa (sub a b f.c).value (sub a b f.c).flags).value := rfl
  have hcarry : result.flags.c = fixesHigh (sub a b f.c).value (sub a b f.c).flags :=
    daa_flags_c _ _
  rw [Byte.isDecimal_iff] at ha hb
  rw [a.decimal_eq, b.decimal_eq] at hhigh
  rw [hvalue, hcarry, daa_toNat_of_sub rfl]
  omega

theorem adjusted_sbc :
    let result := AluOp.sbc.adjusted a b f
    Byte.IsDecimal result.value ∧
      Byte.decimal result.value + b.decimal + f.c.toNat =
        a.decimal + 100 * result.flags.c.toNat := by
  intro result
  have hc := f.c.toNat_le
  have hlow := toNat_cases (fixesLow_sub f ha hb)
  have hcarry : result.flags.c = fixesHigh (sub a b f.c).value (sub a b f.c).flags :=
    daa_flags_c _ _
  have hhigh := toNat_cases (fixesHigh_sub f ha hb)
  rw [← hcarry] at hhigh
  have hvalue : result.value.toNat + _ + b.toNat + f.c.toNat =
    a.toNat + 0xA0 * result.flags.c.toNat := adjusted_sbc_toNat f ha hb
  rw [Byte.isDecimal_iff] at ha hb ⊢
  rw [a.decimal_eq, b.decimal_eq] at hhigh ⊢
  rw [Byte.decimal_eq]
  omega

end

theorem isColumn_adjusted_adc :
    IsColumn 100 Byte.decimal Byte.IsDecimal 1 AluOp.adc.adjusted where
  digit_lt {b} hb := by
    rw [Byte.isDecimal_iff] at hb
    rw [b.decimal_eq]
    omega
  valid_value f ha hb := (adjusted_adc f ha hb).1
  balance f ha hb := by
    have hstep := (adjusted_adc f ha hb).2
    omega

theorem isColumn_adjusted_sbc :
    IsColumn 100 Byte.decimal Byte.IsDecimal (-1) AluOp.sbc.adjusted where
  digit_lt := isColumn_adjusted_adc.digit_lt
  valid_value f ha hb := (adjusted_sbc f ha hb).1
  balance f ha hb := by
    have hstep := (adjusted_sbc f ha hb).2
    omega

/-- Decimal arithmetic on numbers of any length. Along the bytes of two packed
decimal numbers of `n` bytes, the addition with carry and the decimal
adjustment give the packed decimal sum, and the subtraction with carry and the
adjustment the packed decimal difference, modulo `100 ^ n`. The last carry
tells whether the exact result left the range. -/
theorem ripple_decimal {n : Nat} {xs ys : List Byte} (hx : xs.length = n)
    (hy : ys.length = n) (hxs : ∀ b ∈ xs, Byte.IsDecimal b) (hys : ∀ b ∈ ys, Byte.IsDecimal b)
    (f : Flags) :
    let sum := ripple AluOp.adc.adjusted xs ys f
    let difference := ripple AluOp.sbc.adjusted xs ys f
    (sum.1.length = n ∧ (∀ b ∈ sum.1, Byte.IsDecimal b) ∧
      decimal sum.1 = (decimal xs + decimal ys + f.c.toNat) % 100 ^ n ∧
      (sum.2.c ↔ 100 ^ n ≤ decimal xs + decimal ys + f.c.toNat)) ∧
    (difference.1.length = n ∧ (∀ b ∈ difference.1, Byte.IsDecimal b) ∧
      (decimal difference.1 : Int) = (decimal xs - decimal ys - f.c.toNat : Int) % 100 ^ n ∧
      (difference.2.c ↔ decimal xs < decimal ys + f.c.toNat)) := by
  subst hx
  intro sum difference
  constructor
  · obtain ⟨hvalue, hcarry⟩ := isColumn_adjusted_adc.sum (by decide) hy.symm hxs hys f
    exact ⟨length_ripple hy.symm f, isColumn_adjusted_adc.valid_ripple hxs hys f, hvalue, hcarry⟩
  · obtain ⟨hvalue, hborrow⟩ := isColumn_adjusted_sbc.difference (by decide) hy.symm hxs hys f
    refine ⟨length_ripple hy.symm f, isColumn_adjusted_sbc.valid_ripple hxs hys f, ?_, ?_⟩
    · exact_mod_cast hvalue
    · rw [hborrow]
      simp only [decimal]
      omega

/-- The sum of 99 95 and 00 04 with a carry goes round to zero, and so the
difference from zero borrows. -/
theorem ripple_decimal_two :
    let xs : List Byte := [0x95, 0x99]
    let ys : List Byte := [0x04, 0x00]
    let f : Flags := { c := true }
    let sum := ripple AluOp.adc.adjusted xs ys f
    let difference := ripple AluOp.sbc.adjusted ys xs f
    xs.length = 2 ∧ ys.length = 2 ∧ (∀ b ∈ xs, Byte.IsDecimal b) ∧
    (∀ b ∈ ys, Byte.IsDecimal b) ∧
    sum.1 = [0x00, 0x00] ∧ decimal sum.1 = (9995 + 4 + 1) % 100 ^ 2 ∧ sum.2.c ∧
    difference.1 = [0x08, 0x00] ∧ (decimal difference.1 : Int) = (4 - 9995 - 1) % 100 ^ 2 ∧
    difference.2.c := by
  intro xs ys f sum difference
  have hxs : ∀ b ∈ xs, Byte.IsDecimal b := by decide +kernel
  have hys : ∀ b ∈ ys, Byte.IsDecimal b := by decide +kernel
  have hdecimal : decimal xs = 9995 ∧ decimal ys = 4 := by decide +kernel
  obtain ⟨⟨-, -, hsum, hcarry⟩, -⟩ :=
    ripple_decimal (n := 2) rfl rfl hxs hys f
  obtain ⟨-, -, -, hdifference, hborrow⟩ :=
    ripple_decimal (n := 2) rfl rfl hys hxs f
  rw [hdecimal.1, hdecimal.2] at hsum hcarry hdifference hborrow
  exact ⟨rfl, rfl, hxs, hys, by decide +kernel, hsum, hcarry.mpr (by decide),
    by decide +kernel, hdifference, hborrow.mpr (by decide)⟩

end Alu
end Z80
