import Z80.Word

/-!
A peripheral on the interrupt daisy chain. It tells in two bits of a state
byte whether it asks for service and whether it is being served.
-/
namespace Z80

class Peripheral (δ : Type) where
  /-- Back to the power-on state. -/
  reset : δ → δ
  irqState : δ → Byte
  /-- The processor took this device's request. Gives the vector byte. -/
  interruptEntry : δ → Byte × δ
  /-- The processor has returned from this device's service routine. -/
  interruptReti : δ → δ

namespace Peripheral

/-- State bit of a device that asks for service. -/
def requestBit : Byte := 0x01

/-- State bit of a device under service, which blocks the devices below. -/
def serviceBit : Byte := 0x02

def requests (state : Byte) : Bool :=
  state &&& requestBit != 0

def inService (state : Byte) : Bool :=
  state &&& serviceBit != 0

end Peripheral

end Z80
