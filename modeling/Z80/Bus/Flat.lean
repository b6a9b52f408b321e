import Z80.Memory
import Z80.Bus.Basic

/-!
The flat bus: one memory for data and instructions. It latches the value
that each I/O address reads and records every output in order.
-/
namespace Z80.Bus

/-- The I/O space: the value that each address reads, and what was written,
oldest first. -/
structure IoSpace where
  input : Word → Byte := fun _ => 0xFF
  output : Array (Word × Byte) := #[]

namespace IoSpace

def latch (a : Word) (v : Byte) (io : IoSpace) : IoSpace :=
  { io with input := fun x => if x = a then v else io.input x }

def record (a : Word) (v : Byte) : IoSpace → IoSpace
  | ⟨input, output⟩ => ⟨input, output.push (a, v)⟩

end IoSpace

structure Flat where
  memory : Memory := Memory.blank
  io : IoSpace := {}
  irqData : BitVec 32 := 0xFF

namespace Flat

def peek (b : Flat) (a : Word) : Byte :=
  b.memory.get a

def poke (a : Word) (v : Byte) : Flat → Flat
  | ⟨memory, io, irqData⟩ => ⟨memory.set a v, io, irqData⟩

def load (a : Word) (data : List Byte) : Flat → Flat
  | ⟨memory, io, irqData⟩ => ⟨memory.load a data, io, irqData⟩

/-- Sets what an I/O address reads from now on. -/
def latchInput (a : Word) (v : Byte) (b : Flat) : Flat :=
  { b with io := b.io.latch a v }

def setIrqData (data : BitVec 32) (b : Flat) : Flat :=
  { b with irqData := data }

end Flat

instance : Bus Flat where
  read a b := (b.peek a, b)
  write a v b := ((), b.poke a v)
  ioRead a b := (b.io.input a, b)
  ioWrite a v
    | ⟨memory, io, irqData⟩ => ((), ⟨memory, io.record a v, irqData⟩)
  irqAck b := (b.irqData, b)

end Z80.Bus
