import Z80.Word

/-!
What the processor is connected to: a memory and an I/O space of 16-bit
addresses each. A bus has a state of its own, which any access may change.
Only the two memory accesses are required: without more, input reads as open
lines, output goes nowhere, instructions come from memory, and an
acknowledged interrupt reads `FF`.
-/
namespace Z80

class Bus (σ : Type) where
  read : Word → StateM σ Byte
  write : Word → Byte → StateM σ Unit
  ioRead : Word → StateM σ Byte := fun _ => pure 0xFF
  ioWrite : Word → Byte → StateM σ Unit := fun _ _ => pure ()
  fetchOpcode : Word → StateM σ Byte := read
  fetchOperand : Word → StateM σ Byte := read
  /-- The data that answers an interrupt acknowledge. -/
  irqAck : StateM σ (BitVec 32) := pure 0xFF

namespace Bus

/-- A bus reduced to its memory: everything else behaves as if absent. -/
structure MemoryOnly (σ : Type) where
  inner : σ

/-- Runs an access of the inner bus. -/
def MemoryOnly.lift {σ α : Type} (act : StateM σ α) : StateM (MemoryOnly σ) α :=
  fun ⟨inner⟩ =>
    let (v, inner) := act inner
    (v, ⟨inner⟩)

instance {σ : Type} [Bus σ] : Bus (MemoryOnly σ) where
  read a := MemoryOnly.lift (Bus.read a)
  write a v := MemoryOnly.lift (Bus.write a v)

end Bus
end Z80
