import Z80.Bus.Flat

/-!
The banked bus: a flat bus for data, and memories of their own from which
opcodes and operands are fetched.
-/
namespace Z80.Bus

structure Banked where
  data : Flat := {}
  opcodes : Memory := Memory.blank
  operands : Memory := Memory.blank

namespace Banked

/-- Runs an access of the data side. -/
def onData {α : Type} (act : StateM Flat α) : StateM Banked α :=
  fun ⟨data, opcodes, operands⟩ =>
    let (v, data) := act data
    (v, ⟨data, opcodes, operands⟩)

end Banked

instance : Bus Banked where
  read a := Banked.onData (Bus.read a)
  write a v := Banked.onData (Bus.write a v)
  ioRead a := Banked.onData (Bus.ioRead a)
  ioWrite a v := Banked.onData (Bus.ioWrite a v)
  fetchOpcode a b := (b.opcodes.get a, b)
  fetchOperand a b := (b.operands.get a, b)
  irqAck := Banked.onData Bus.irqAck

end Z80.Bus
