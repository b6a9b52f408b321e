import Mathlib.Data.Nat.Digits.Lemmas
import Mathlib.Tactic.LinearCombination
import Z80.Proofs.ExactFlags

/-!
Arithmetic on numbers of many bytes, done byte by byte from the lowest one up.
Each step takes its carry from the flags of the step before it. One step keeps
a balance between the digits and the two carries, and from it the whole run
keeps the balance of the numbers. What the last flags say of the sign comes
from the highest bytes alone.
-/
namespace Z80

/-- The number that bytes stand for as digits of a radix, the lowest first. -/
def number (radix : Nat) (digit : Byte → Nat) (bytes : List Byte) : Nat :=
  Nat.ofDigits radix (bytes.map digit)

/-- The number that bytes stand for, the lowest first. -/
def unsigned (bytes : List Byte) : Nat :=
  number 256 BitVec.toNat bytes

/-- The number that bytes stand for in two's complement, the lowest first. -/
def signed (bytes : List Byte) : Int :=
  (unsigned bytes : Int).bmod (256 ^ bytes.length)

section

variable (radix : Nat) (digit : Byte → Nat)

theorem number_cons (b : Byte) (bytes : List Byte) :
    number radix digit (b :: bytes) = digit b + radix * number radix digit bytes :=
  Nat.ofDigits_cons

theorem number_concat (bytes : List Byte) (b : Byte) :
    number radix digit (bytes ++ [b]) =
      number radix digit bytes + radix ^ bytes.length * digit b := by
  simp only [number, List.map_append, List.map_cons, List.map_nil, Nat.ofDigits_append,
    Nat.ofDigits_singleton, List.length_map]

end

namespace Alu

/-- Runs an operation along two numbers of the same length, the lowest bytes
first. Each step takes the flags of the one before it. -/
def ripple (op : Byte → Byte → Flags → Result 8) :
    List Byte → List Byte → Flags → List Byte × Flags
  | a :: as, b :: bs, f =>
    let first := op a b f
    let rest := ripple op as bs first.flags
    (first.value :: rest.1, rest.2)
  | _, _, f => ([], f)

section

variable {op : Byte → Byte → Flags → Result 8} {xs ys : List Byte}

theorem length_ripple (hlength : xs.length = ys.length) (f : Flags) :
    (ripple op xs ys f).1.length = xs.length := by
  induction xs generalizing ys f with
  | nil => rfl
  | cons a as ih =>
      cases ys with
      | nil => cases hlength
      | cons b bs => exact congrArg (· + 1) (ih (Nat.succ.inj hlength) _)

theorem exists_concat (hpos : 0 < xs.length) (hlength : xs.length = ys.length) :
    ∃ xs' a ys' b, xs = xs' ++ [a] ∧ ys = ys' ++ [b] ∧ xs'.length = ys'.length := by
  obtain rfl | ⟨xs', a, rfl⟩ := xs.eq_nil_or_concat'
  · cases hpos
  obtain rfl | ⟨ys', b, rfl⟩ := ys.eq_nil_or_concat'
  · rw [hlength] at hpos
    cases hpos
  rw [List.length_append, List.length_append] at hlength
  exact ⟨xs', a, ys', b, rfl, rfl, Nat.add_right_cancel hlength⟩

/-- The highest bytes are the last to be worked on. -/
theorem ripple_concat (hlength : xs.length = ys.length) (a b : Byte) (f : Flags) :
    let low := ripple op xs ys f
    let last := op a b low.2
    ripple op (xs ++ [a]) (ys ++ [b]) f = (low.1 ++ [last.value], last.flags) := by
  induction xs generalizing ys f with
  | nil =>
      rw [List.eq_nil_of_length_eq_zero hlength.symm]
      rfl
  | cons _ _ ih =>
      cases ys with
      | nil => cases hlength
      | cons _ _ =>
          simp only [List.cons_append, ripple]
          rw [ih (Nat.succ.inj hlength)]

/-- The last flags are those of some step. -/
theorem exists_last (op : Byte → Byte → Flags → Result 8) (hpos : 0 < xs.length)
    (hlength : xs.length = ys.length) (f : Flags) :
    ∃ a b g, (ripple op xs ys f).2 = (op a b g).flags := by
  obtain ⟨xs, a, ys, b, rfl, rfl, hbelow⟩ := exists_concat hpos hlength
  exact ⟨a, b, _, congrArg Prod.snd (ripple_concat hbelow a b f)⟩

end

/-- One step of an operation on bytes that stand for digits. Its balance says
that a carry out is worth one more radix than a carry in. The sign is 1 for an
addition and -1 for a subtraction. -/
structure IsColumn (radix : Nat) (digit : Byte → Nat) (valid : Byte → Prop) (sign : Int)
    (op : Byte → Byte → Flags → Result 8) : Prop where
  digit_lt {b : Byte} : valid b → digit b < radix
  valid_value {a b : Byte} (f : Flags) : valid a → valid b → valid (op a b f).value
  balance {a b : Byte} (f : Flags) : valid a → valid b →
    digit (op a b f).value + sign * (radix * (op a b f).flags.c.toNat) =
      digit a + sign * (digit b + f.c.toNat)

namespace IsColumn

variable {radix : Nat} {digit : Byte → Nat} {valid : Byte → Prop} {sign : Int}
  {op : Byte → Byte → Flags → Result 8} {xs ys : List Byte}

theorem valid_ripple (h : IsColumn radix digit valid sign op) (hx : ∀ b ∈ xs, valid b)
    (hy : ∀ b ∈ ys, valid b) (f : Flags) : ∀ b ∈ (ripple op xs ys f).1, valid b := by
  induction xs generalizing ys f with
  | nil => exact fun _ hb => nomatch hb
  | cons a as ih =>
      cases ys with
      | nil => exact fun _ hb => nomatch hb
      | cons b bs =>
          rw [List.forall_mem_cons] at hx hy
          exact List.forall_mem_cons.mpr ⟨h.valid_value f hx.1 hy.1, ih hx.2 hy.2 _⟩

/-- The whole run keeps the balance of its steps. A carry between two bytes is
counted out by the one and in by the other. -/
theorem balance_ripple (h : IsColumn radix digit valid sign op) (hlength : xs.length = ys.length)
    (hx : ∀ b ∈ xs, valid b) (hy : ∀ b ∈ ys, valid b) (f : Flags) :
    number radix digit (ripple op xs ys f).1 +
        sign * (radix ^ xs.length * (ripple op xs ys f).2.c.toNat) =
      number radix digit xs + sign * (number radix digit ys + f.c.toNat) := by
  induction xs generalizing ys f with
  | nil =>
      rw [List.eq_nil_of_length_eq_zero hlength.symm]
      simp [ripple, number]
  | cons a as ih =>
      cases ys with
      | nil => cases hlength
      | cons b bs =>
          rw [List.forall_mem_cons] at hx hy
          have hstep := h.balance f hx.1 hy.1
          have hrest := ih (Nat.succ.inj hlength) hx.2 hy.2 (op a b f).flags
          simp only [ripple, number_cons, List.length_cons, pow_succ]
          push_cast
          linear_combination hstep + radix * hrest

theorem number_lt (h : IsColumn radix digit valid sign op) (hradix : 1 < radix)
    (hx : ∀ b ∈ xs, valid b) : number radix digit xs < radix ^ xs.length := by
  rw [number, ← List.length_map digit]
  refine Nat.ofDigits_lt_base_pow_length hradix fun d hd => ?_
  obtain ⟨b, hb, rfl⟩ := List.mem_map.mp hd
  exact h.digit_lt (hx b hb)

theorem ripple_lt (h : IsColumn radix digit valid sign op) (hradix : 1 < radix)
    (hlength : xs.length = ys.length) (hx : ∀ b ∈ xs, valid b) (hy : ∀ b ∈ ys, valid b)
    (f : Flags) : number radix digit (ripple op xs ys f).1 < radix ^ xs.length := by
  rw [← length_ripple hlength f]
  exact h.number_lt hradix (h.valid_ripple hx hy f)

/-- A run of additions gives the sum modulo the range, and carries out of it
exactly where the sum leaves the range. -/
theorem sum (h : IsColumn radix digit valid 1 op) (hradix : 1 < radix)
    (hlength : xs.length = ys.length) (hx : ∀ b ∈ xs, valid b) (hy : ∀ b ∈ ys, valid b)
    (f : Flags) :
    let exact := number radix digit xs + number radix digit ys + f.c.toNat
    number radix digit (ripple op xs ys f).1 = exact % radix ^ xs.length ∧
      ((ripple op xs ys f).2.c ↔ radix ^ xs.length ≤ exact) := by
  intro exact
  have hlt := h.ripple_lt hradix hlength hx hy f
  have hbalance : number radix digit (ripple op xs ys f).1 +
      radix ^ xs.length * (ripple op xs ys f).2.c.toNat = exact := by
    have hint := h.balance_ripple hlength hx hy f
    rw [one_mul, one_mul, ← add_assoc] at hint
    exact_mod_cast hint
  constructor
  · rw [← hbalance, Nat.add_mul_mod_self_left, Nat.mod_eq_of_lt hlt]
  · cases hc : (ripple op xs ys f).2.c with
    | false =>
        rw [hc, Bool.toNat_false, Nat.mul_zero] at hbalance
        exact iff_of_false Bool.false_ne_true (by omega)
    | true =>
        rw [hc, Bool.toNat_true, Nat.mul_one] at hbalance
        exact iff_of_true rfl (by omega)

/-- A run of subtractions gives the difference modulo the range, and borrows
exactly where the difference is negative. -/
theorem difference (h : IsColumn radix digit valid (-1) op) (hradix : 1 < radix)
    (hlength : xs.length = ys.length) (hx : ∀ b ∈ xs, valid b) (hy : ∀ b ∈ ys, valid b)
    (f : Flags) :
    let exact : Int := number radix digit xs - number radix digit ys - f.c.toNat
    number radix digit (ripple op xs ys f).1 = exact % (radix ^ xs.length : Nat) ∧
      ((ripple op xs ys f).2.c ↔ exact < 0) := by
  intro exact
  have hlt := h.ripple_lt hradix hlength hx hy f
  have hbalance : (number radix digit (ripple op xs ys f).1 : Int) =
      exact + (radix ^ xs.length : Nat) * (ripple op xs ys f).2.c.toNat := by
    have hint := h.balance_ripple hlength hx hy f
    push_cast
    linear_combination hint
  constructor
  · rw [← Int.emod_eq_of_lt (Int.natCast_nonneg _) (Int.ofNat_lt.mpr hlt), hbalance,
      Int.add_mul_emod_self_left]
  · cases hc : (ripple op xs ys f).2.c with
    | false =>
        rw [hc, Bool.toNat_false, Int.natCast_zero, Int.mul_zero] at hbalance
        exact iff_of_false Bool.false_ne_true (by omega)
    | true =>
        rw [hc, Bool.toNat_true, Int.natCast_one, Int.mul_one] at hbalance
        exact iff_of_true rfl (by omega)

end IsColumn

/-! Bytes as digits of radix 256. -/

theorem isColumn_adc : IsColumn 256 BitVec.toNat (fun _ => True) 1 AluOp.adc.apply where
  digit_lt {b} _ := b.isLt
  valid_value _ _ _ := trivial
  balance {a b} f _ _ := by
    have hstep : (AluOp.adc.apply a b f).value.toNat +
        256 * (AluOp.adc.apply a b f).flags.c.toNat = a.toNat + b.toNat + f.c.toNat :=
      add_balance a b f.c
    omega

theorem isColumn_sbc : IsColumn 256 BitVec.toNat (fun _ => True) (-1) AluOp.sbc.apply where
  digit_lt {b} _ := b.isLt
  valid_value _ _ _ := trivial
  balance {a b} f _ _ := by
    have hstep : (AluOp.sbc.apply a b f).value.toNat + b.toNat + f.c.toNat =
        a.toNat + 256 * (AluOp.sbc.apply a b f).flags.c.toNat :=
      sub_balance a b f.c
    omega

theorem unsigned_lt (bytes : List Byte) : unsigned bytes < 256 ^ bytes.length :=
  isColumn_adc.number_lt (by decide) fun _ _ => trivial

theorem unsigned_concat (bytes : List Byte) (b : Byte) :
    unsigned (bytes ++ [b]) = unsigned bytes + 256 ^ bytes.length * b.toNat :=
  number_concat _ _ bytes b

/-- In two's complement only the highest byte counts as signed. -/
theorem signed_concat (bytes : List Byte) (b : Byte) :
    signed (bytes ++ [b]) = 256 ^ bytes.length * b.toInt + unsigned bytes := by
  have hlow : (0 : Int) ≤ unsigned bytes := Int.natCast_nonneg _
  have hhigh : (unsigned bytes : Int) < (256 ^ bytes.length : Nat) :=
    Int.ofNat_lt.mpr (unsigned_lt bytes)
  have hmin := (mul_add_lt_mul_iff hlow hhigh).not.mpr (Int.not_lt.mpr b.le_toInt)
  have hmax := (mul_add_lt_mul_iff hlow hhigh).mpr b.toInt_lt
  obtain ⟨q, hq⟩ : ∃ q : Int, b.toNat = b.toInt + 256 * q :=
    ⟨(b.toNat - b.toInt) / 256, by rw [BitVec.toInt_eq_toNat_cond]; split <;> omega⟩
  have hsplit : (unsigned (bytes ++ [b]) : Int) =
      (256 ^ bytes.length : Nat) * b.toInt + unsigned bytes +
        (256 ^ (bytes ++ [b]).length : Nat) * q := by
    rw [unsigned_concat, List.length_append, List.length_singleton, pow_succ]
    push_cast
    rw [hq]
    ring
  have hrange : 256 ^ (bytes ++ [b]).length = 256 ^ bytes.length * 256 := by
    rw [List.length_append, List.length_singleton, pow_succ]
  rw [signed, hsplit, Int.add_mul_bmod_self_left, hrange, Int.bmod_eq_of_le]
  · push_cast
    rfl
  · omega
  · omega

theorem unsigned_concat_testBit (bytes : List Byte) (b : Byte) :
    (unsigned (bytes ++ [b])).testBit (8 * (bytes ++ [b]).length - 1) = b.msb := by
  have hpow : 256 ^ bytes.length = 2 ^ (8 * bytes.length) := by
    rw [Nat.pow_mul]
  have hlt := unsigned_lt bytes
  rw [hpow] at hlt
  have hindex : 8 * (bytes ++ [b]).length - 1 = 8 * bytes.length + 7 := by
    rw [List.length_append, List.length_singleton]
    omega
  rw [unsigned_concat, hpow, Nat.add_comm, hindex, Nat.testBit_two_pow_mul_add _ hlt,
    if_neg (by omega), Nat.add_sub_cancel_left, BitVec.testBit_toNat, BitVec.msb_eq_getLsbD_last]

section

variable {op : Byte → Byte → Flags → Result 8} {sign : Int} {xs ys : List Byte}

/-- The signed balance of a run is that of its highest bytes, but for what
the bytes below them hold. -/
theorem IsColumn.balance_concat (h : IsColumn 256 BitVec.toNat (fun _ => True) sign op)
    (hlength : xs.length = ys.length) (a b : Byte) (f : Flags) :
    signed (xs ++ [a]) + sign * (signed (ys ++ [b]) + f.c.toNat) =
      2 ^ (8 * xs.length) * (a.toInt + sign * (b.toInt + (ripple op xs ys f).2.c.toNat)) +
        unsigned (ripple op xs ys f).1 := by
  have hbalance := h.balance_ripple hlength (fun _ _ => trivial) (fun _ _ => trivial) f
  have hpow : (2 : Int) ^ (8 * xs.length) = 256 ^ xs.length := by
    rw [pow_mul]
    rfl
  rw [signed_concat, signed_concat, hpow, ← hlength]
  simp only [unsigned]
  push_cast at hbalance
  linear_combination -hbalance

/-- A run of at least one byte leaves the flags of its highest bytes, which
tell the sign of the whole number and whether it overflowed. -/
theorem IsColumn.signs (h : IsColumn 256 BitVec.toNat (fun _ => True) sign op)
    (hsign : ∀ a b f, (op a b f).flags.s = (op a b f).value.msb)
    (hoverflow : ∀ a b f,
      (op a b f).flags.p = overflows 8 (a.toInt + sign * (b.toInt + f.c.toNat)))
    (hpos : 0 < xs.length) (hlength : xs.length = ys.length) (f : Flags) :
    let exact := signed xs + sign * (signed ys + f.c.toNat)
    let result := ripple op xs ys f
    (result.2.p ↔
      exact < -2 ^ (8 * xs.length - 1) ∨ (2 : Int) ^ (8 * xs.length - 1) ≤ exact) ∧
    result.2.s = (unsigned result.1).testBit (8 * xs.length - 1) := by
  intro exact result
  obtain ⟨xs, a, ys, b, rfl, rfl, hbelow⟩ := exists_concat hpos hlength
  let low := ripple op xs ys f
  have hresult : result = (low.1 ++ [(op a b low.2).value], (op a b low.2).flags) :=
    ripple_concat hbelow a b f
  have hwidth : 8 * (xs ++ [a]).length = 8 + 8 * xs.length := by
    rw [List.length_append, List.length_singleton]
    omega
  constructor
  · have hlow : (unsigned low.1 : Int) < 2 ^ (8 * xs.length) := by
      have hlt := unsigned_lt low.1
      rw [length_ripple hbelow f] at hlt
      rw [pow_mul]
      exact_mod_cast hlt
    rw [hresult, hwidth, ← overflows_iff, hoverflow,
      show exact = _ from h.balance_concat hbelow a b f,
      overflows_mul_add (by decide) (Int.natCast_nonneg _) hlow]
  · have hlength' : (xs ++ [a]).length = (low.1 ++ [(op a b low.2).value]).length := by
      rw [List.length_append, List.length_append, length_ripple hbelow f]
      rfl
    rw [hresult, hlength', unsigned_concat_testBit, hsign]

end

/-- Binary arithmetic on numbers of any length. Along the bytes of two numbers
of `n` bytes, the addition with carry gives the sum, and the subtraction with
carry the difference, modulo `256 ^ n`. The last flags tell whether the exact
result left the range as an unsigned and as a signed number, its sign, and
which of the two operations it was. -/
theorem ripple_binary {n : Nat} {xs ys : List Byte} (hpos : 0 < n) (hx : xs.length = n)
    (hy : ys.length = n) (f : Flags) :
    let sum := ripple AluOp.adc.apply xs ys f
    let difference := ripple AluOp.sbc.apply xs ys f
    let signedSum := signed xs + signed ys + f.c.toNat
    let signedDifference := signed xs - signed ys - f.c.toNat
    (sum.1.length = n ∧
      unsigned sum.1 = (unsigned xs + unsigned ys + f.c.toNat) % 256 ^ n ∧
      (sum.2.c ↔ 256 ^ n ≤ unsigned xs + unsigned ys + f.c.toNat) ∧
      (sum.2.p ↔ signedSum < -2 ^ (8 * n - 1) ∨ 2 ^ (8 * n - 1) ≤ signedSum) ∧
      sum.2.s = (unsigned sum.1).testBit (8 * n - 1) ∧
      sum.2.n = false) ∧
    (difference.1.length = n ∧
      (unsigned difference.1 : Int) = (unsigned xs - unsigned ys - f.c.toNat : Int) % 256 ^ n ∧
      (difference.2.c ↔ unsigned xs < unsigned ys + f.c.toNat) ∧
      (difference.2.p ↔
        signedDifference < -2 ^ (8 * n - 1) ∨ 2 ^ (8 * n - 1) ≤ signedDifference) ∧
      difference.2.s = (unsigned difference.1).testBit (8 * n - 1) ∧
      difference.2.n = true) := by
  subst hx
  have hvalid (bytes : List Byte) : ∀ b ∈ bytes, True := fun _ _ => trivial
  intro sum difference signedSum signedDifference
  constructor
  · obtain ⟨hvalue, hcarry⟩ :=
      isColumn_adc.sum (by decide) hy.symm (hvalid xs) (hvalid ys) f
    obtain ⟨hoverflow, hsign⟩ := isColumn_adc.signs (fun _ _ _ => rfl)
      (fun a b f => by
        rw [one_mul, ← add_assoc]
        exact congrArg (·.flags.p) (add_eq a b f.c)) hpos hy.symm f
    rw [one_mul, ← add_assoc] at hoverflow
    obtain ⟨a, b, g, hlast⟩ := exists_last AluOp.adc.apply hpos hy.symm f
    exact ⟨length_ripple hy.symm f, hvalue, hcarry, hoverflow, hsign, congrArg Flags.n hlast⟩
  · obtain ⟨hvalue, hborrow⟩ :=
      isColumn_sbc.difference (by decide) hy.symm (hvalid xs) (hvalid ys) f
    obtain ⟨hoverflow, hsign⟩ := isColumn_sbc.signs (fun _ _ _ => rfl)
      (fun a b f => by
        rw [neg_one_mul, ← sub_eq_add_neg, ← sub_sub]
        exact congrArg (·.flags.p) (sub_eq a b f.c)) hpos hy.symm f
    rw [neg_one_mul, ← sub_eq_add_neg, ← sub_sub] at hoverflow
    obtain ⟨a, b, g, hlast⟩ := exists_last AluOp.sbc.apply hpos hy.symm f
    refine ⟨length_ripple hy.symm f, ?_, ?_, hoverflow, hsign, congrArg Flags.n hlast⟩
    · exact_mod_cast hvalue
    · rw [hborrow]
      simp only [unsigned]
      omega

/-- An operand byte of `FF` takes a carry in. The sum of two positive numbers
comes out negative. -/
theorem ripple_binary_three :
    let xs : List Byte := [0xFF, 0xFF, 0x7F]
    let ys : List Byte := [0xFF, 0xFF, 0x00]
    let f : Flags := { c := true }
    let sum := ripple AluOp.adc.apply xs ys f
    let difference := ripple AluOp.sbc.apply xs ys f
    0 < 3 ∧ xs.length = 3 ∧ ys.length = 3 ∧
    sum.1 = [0xFF, 0xFF, 0x80] ∧
    unsigned sum.1 = (unsigned xs + unsigned ys + 1) % 256 ^ 3 ∧ sum.2.p ∧
    2 ^ 23 ≤ signed xs + signed ys + 1 ∧
    difference.1 = [0xFF, 0xFF, 0x7E] ∧
    (unsigned difference.1 : Int) = (unsigned xs - unsigned ys - 1 : Int) % 256 ^ 3 := by
  intro xs ys f sum difference
  have hrun := ripple_binary (n := 3) (by decide) (show xs.length = 3 from rfl)
    (show ys.length = 3 from rfl) f
  obtain ⟨⟨-, hsum, -, hoverflow, -⟩, -, hdifference, -⟩ := hrun
  have hexact : 2 ^ 23 ≤ signed xs + signed ys + 1 := by decide +kernel
  exact ⟨by decide, rfl, rfl, by decide +kernel, hsum, hoverflow.mpr (.inr hexact), hexact,
    by decide +kernel, hdifference⟩

end Alu
end Z80
