import Z80.Word

/-!
A memory of 65536 bytes. Every address has a byte; a store changes the byte
at its own address and no other.
-/
namespace Z80

structure Memory where
  bytes : Vector Byte 0x10000
deriving DecidableEq

namespace Memory

def blank : Memory where
  bytes := Vector.replicate 0x10000 0

instance : Inhabited Memory := ⟨blank⟩

def get (m : Memory) (a : Word) : Byte :=
  m.bytes[a.toFin]

def set : Memory → Word → Byte → Memory
  | ⟨bytes⟩, a, v => ⟨bytes.set a.toNat v a.isLt⟩

/-- Stores a list of bytes upwards from an address, past the top of memory
to its bottom. -/
def load (m : Memory) (a : Word) : List Byte → Memory
  | [] => m
  | v :: rest => load (m.set a v) (a + 1) rest

@[simp] theorem get_blank (a : Word) : blank.get a = 0 := by
  simp only [get, blank, Fin.getElem_fin, Vector.getElem_replicate]

theorem get_set (m : Memory) (a x : Word) (v : Byte) :
    (m.set a v).get x = if x = a then v else m.get x := by
  simp only [get, set, Fin.getElem_fin, Vector.getElem_set, BitVec.val_toFin]
  by_cases h : x = a
  · simp [h]
  · have : a.toNat ≠ x.toNat := fun e => h (BitVec.eq_of_toNat_eq e.symm)
    simp [h, this]

@[simp] theorem get_set_self (m : Memory) (a : Word) (v : Byte) :
    (m.set a v).get a = v := by
  simp [get_set]

theorem get_set_of_ne (m : Memory) {a x : Word} (v : Byte) (h : x ≠ a) :
    (m.set a v).get x = m.get x := by
  simp [get_set, h]

end Memory
end Z80
