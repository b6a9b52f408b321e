import Z80.Proofs.ExactFlags

/-!
The arithmetic of words by halves. A word is added or subtracted as its low
bytes and then its high bytes, with the carry of the low ones. The flags are
those of the high bytes, but for zero, which looks at the whole word.
-/
namespace Z80

namespace Word

theorem setWidth_ofBytes (h l : Byte) : (ofBytes h l).setWidth 12 = h.setWidth 4 ++ l :=
  BitVec.setWidth_append

theorem ofResult_high (w : Word) :
    Flags.ofResult w.high =
      { s := w.msb
        z := w.high == 0
        y := w.getLsbD 13
        x := w.getLsbD 11 } := by
  obtain ⟨h, l, rfl⟩ : ∃ h l, w = ofBytes h l := ⟨_, _, w.ofBytes_high_low.symm⟩
  have hmsb : (ofBytes h l).msb = h.msb := BitVec.msb_append
  have hbit (i : Nat) : (ofBytes h l).getLsbD (8 + i) = h.getLsbD i := by
    rw [ofBytes, BitVec.getLsbD_append, if_neg (by omega), Nat.add_sub_cancel_left]
  rw [high_ofBytes, hmsb, hbit 5, hbit 3, Flags.ofResult]

end Word

namespace Alu

/-- An operation on bytes, done on the low halves of two words and then, with
its carry, on the high halves. -/
def byHalves (op : Byte → Byte → Bool → Result 8) (a b : Word) (carry : Bool) : Result 16 :=
  let low := op a.low b.low carry
  let high := op a.high b.high low.flags.c
  { value := Word.ofBytes high.value low.value
    flags := high.flags }

theorem byHalves_add (a b : Word) (carry : Bool) :
    byHalves add a b carry =
      let value := a + b + carryIn 16 carry
      { value
        flags :=
          { Flags.ofResult value.high with
            h := carries 12 (a.setWidth 12) (b.setWidth 12) carry
            p := overflows 16 (a.toInt + b.toInt + carry.toNat)
            c := carries 16 a b carry } } := by
  obtain ⟨high, low, rfl⟩ : ∃ h l, a = Word.ofBytes h l := ⟨_, _, a.ofBytes_high_low.symm⟩
  obtain ⟨high', low', rfl⟩ : ∃ h l, b = Word.ofBytes h l := ⟨_, _, b.ofBytes_high_low.symm⟩
  have hvalue : Word.ofBytes high low + Word.ofBytes high' low' + carryIn 16 carry =
      Word.ofBytes (high + high' + carryIn 8 (carries 8 low low' carry))
        (low + low' + carryIn 8 carry) :=
    sum_append high high' low low' carry
  have hhalf : carries 12 (high.setWidth 4 ++ low) (high'.setWidth 4 ++ low') carry =
      carries 4 (high.setWidth 4) (high'.setWidth 4) (carries 8 low low' carry) :=
    carries_append (high.setWidth 4) (high'.setWidth 4) low low' carry
  have hoverflow :
      overflows 16 ((Word.ofBytes high low).toInt + (Word.ofBytes high' low').toInt +
        carry.toNat) = overflows 8 (high.toInt + high'.toInt + (carries 8 low low' carry).toNat) :=
    overflows_sum_append high high' low low' carry (by decide)
  have hcarry : carries 16 (Word.ofBytes high low) (Word.ofBytes high' low') carry =
      carries 8 high high' (carries 8 low low' carry) :=
    carries_append high high' low low' carry
  simp only [byHalves, add_eq, Word.setWidth_ofBytes, Word.high_ofBytes, Word.low_ofBytes, hvalue,
    hhalf, hoverflow, hcarry]

theorem byHalves_sub (a b : Word) (carry : Bool) :
    byHalves sub a b carry =
      let value := a - b - carryIn 16 carry
      { value
        flags :=
          { Flags.ofResult value.high with
            h := borrows 12 (a.setWidth 12) (b.setWidth 12) carry
            p := overflows 16 (a.toInt - b.toInt - carry.toNat)
            n := true
            c := borrows 16 a b carry } } := by
  obtain ⟨high, low, rfl⟩ : ∃ h l, a = Word.ofBytes h l := ⟨_, _, a.ofBytes_high_low.symm⟩
  obtain ⟨high', low', rfl⟩ : ∃ h l, b = Word.ofBytes h l := ⟨_, _, b.ofBytes_high_low.symm⟩
  have hvalue : Word.ofBytes high low - Word.ofBytes high' low' - carryIn 16 carry =
      Word.ofBytes (high - high' - carryIn 8 (borrows 8 low low' carry))
        (low - low' - carryIn 8 carry) :=
    difference_append high high' low low' carry
  have hhalf : borrows 12 (high.setWidth 4 ++ low) (high'.setWidth 4 ++ low') carry =
      borrows 4 (high.setWidth 4) (high'.setWidth 4) (borrows 8 low low' carry) :=
    borrows_append (high.setWidth 4) (high'.setWidth 4) low low' carry
  have hoverflow :
      overflows 16 ((Word.ofBytes high low).toInt - (Word.ofBytes high' low').toInt -
        carry.toNat) = overflows 8 (high.toInt - high'.toInt - (borrows 8 low low' carry).toNat) :=
    overflows_difference_append high high' low low' carry (by decide)
  have hborrow : borrows 16 (Word.ofBytes high low) (Word.ofBytes high' low') carry =
      borrows 8 high high' (borrows 8 low low' carry) :=
    borrows_append high high' low low' carry
  simp only [byHalves, sub_eq, Word.setWidth_ofBytes, Word.high_ofBytes, Word.low_ofBytes, hvalue,
    hhalf, hoverflow, hborrow]

/-- Words are added and subtracted as their bytes are, one half after the
other. The flags are those of the high half, with zero looked for in the whole
word; the addition without a carry in keeps sign, zero and overflow. -/
theorem words_by_halves (a b : Word) (f : Flags) :
    let sum := byHalves add a b f.c
    let difference := byHalves sub a b f.c
    let plain := byHalves add a b false
    adc16 a b f = { sum with flags := { sum.flags with z := sum.value == 0 } } ∧
    sbc16 a b f =
      { difference with flags := { difference.flags with z := difference.value == 0 } } ∧
    add16 a b f = { plain with flags := { plain.flags with s := f.s, z := f.z, p := f.p } } := by
  refine ⟨?_, ?_, ?_⟩
  · simp only [byHalves_add, Word.ofResult_high, adc16_eq]
  · simp only [byHalves_sub, Word.ofResult_high, sbc16_eq]
  · simp only [byHalves_add, Word.ofResult_high, add16_eq, adc16_eq]

end Alu
end Z80
