/-!
Bytes and 16-bit words. A word is its high byte followed by its low byte, so
that a register pair and its two halves are the same bits seen in two ways.
-/
namespace Z80

abbrev Byte := BitVec 8

abbrev Word := BitVec 16

namespace Word

def high (w : Word) : Byte := w.extractLsb' 8 8

def low (w : Word) : Byte := w.extractLsb' 0 8

def ofBytes (high low : Byte) : Word := high ++ low

/-- A signed displacement, from -128 to 127, as a word to be added. -/
def displacement (d : Byte) : Word := d.signExtend 16

@[simp] theorem high_ofBytes (h l : Byte) : high (ofBytes h l) = h := by
  simp only [high, ofBytes]
  exact BitVec.extractLsb'_append_eq_left

@[simp] theorem low_ofBytes (h l : Byte) : low (ofBytes h l) = l := by
  simp only [low, ofBytes]
  exact BitVec.extractLsb'_append_eq_right

@[simp] theorem ofBytes_high_low (w : Word) : ofBytes (high w) (low w) = w := by
  apply BitVec.eq_of_getLsbD_eq
  intro i hi
  simp only [ofBytes, high, low, BitVec.getLsbD_append, BitVec.getLsbD_extractLsb']
  by_cases h : i < 8
  · simp [h]
  · have : 8 + (i - 8) = i := by omega
    simp [h, this, show i - 8 < 8 by omega]

/-! A byte in the place of a low byte, and the masks that write one half of a word. -/

def ofByte (b : Byte) : Word := b.setWidth 16

def withHigh (b : Byte) (w : Word) : Word := (w &&& 0x00FF#16) ||| (ofByte b <<< 8)

def withLow (b : Byte) (w : Word) : Word := (w &&& 0xFF00#16) ||| ofByte b

@[simp] theorem low_ofByte (b : Byte) : low (ofByte b) = b := by
  revert b
  decide +kernel

theorem ofByte_eq (b : Byte) : ofByte b = ofBytes 0#8 b := by
  revert b
  decide +kernel

theorem ofByte_shiftLeft (b : Byte) : ofByte b <<< 8 = ofBytes b 0#8 := by
  revert b
  decide +kernel

theorem ofBytes_and (h l h' l' : Byte) :
    ofBytes h l &&& ofBytes h' l' = ofBytes (h &&& h') (l &&& l') :=
  BitVec.and_append

theorem ofBytes_or (h l h' l' : Byte) :
    ofBytes h l ||| ofBytes h' l' = ofBytes (h ||| h') (l ||| l') :=
  BitVec.or_append

theorem ofBytes_and_00FF (h l : Byte) : ofBytes h l &&& 0x00FF#16 = ofBytes 0#8 l := by
  have hmask : 0x00FF#16 = ofBytes 0#8 (BitVec.allOnes 8) := rfl
  rw [hmask, ofBytes_and, BitVec.and_zero, BitVec.and_allOnes]

theorem ofBytes_and_FF00 (h l : Byte) : ofBytes h l &&& 0xFF00#16 = ofBytes h 0#8 := by
  have hmask : 0xFF00#16 = ofBytes (BitVec.allOnes 8) 0#8 := rfl
  rw [hmask, ofBytes_and, BitVec.and_zero, BitVec.and_allOnes]

@[simp] theorem withHigh_ofBytes (b h l : Byte) : (ofBytes h l).withHigh b = ofBytes b l := by
  rw [withHigh, ofBytes_and_00FF, ofByte_shiftLeft, ofBytes_or, BitVec.zero_or, BitVec.or_zero]

@[simp] theorem withLow_ofBytes (b h l : Byte) : (ofBytes h l).withLow b = ofBytes h b := by
  rw [withLow, ofBytes_and_FF00, ofByte_eq, ofBytes_or, BitVec.zero_or, BitVec.or_zero]

theorem ofBytes_and_FF (h l : Byte) : ofBytes h l &&& 0xFF#16 = ofByte l :=
  (ofBytes_and_00FF h l).trans (ofByte_eq l).symm

theorem ofBytes_shiftRight (h l : Byte) : ofBytes h l >>> 8 = ofByte h := by
  rw [BitVec.ushiftRight_eq_extractLsb'_of_lt (by decide)]
  exact (congrArg (ofBytes 0#8) (high_ofBytes h l)).trans (ofByte_eq h).symm

end Word

namespace Byte

def highDigit (b : Byte) : BitVec 4 := b.extractLsb' 4 4

def lowDigit (b : Byte) : BitVec 4 := b.extractLsb' 0 4

end Byte
end Z80
