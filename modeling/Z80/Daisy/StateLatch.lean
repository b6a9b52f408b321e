import Z80.Daisy.Peripheral

/-!
A peripheral that is nothing but its state byte. Masks tell how service and
the return from service change the byte.
-/
namespace Z80

/-- Clears and sets chosen bits of a byte. -/
structure Mask where
  keep : Byte
  raise : Byte
deriving DecidableEq

def Mask.apply (m : Mask) (v : Byte) : Byte :=
  v &&& m.keep ||| m.raise

/-- A device that keeps its state in one byte and counts how often each of
its lines was used. Without more, service turns a request into the service
bit, and the return from service clears that bit. -/
structure StateLatch where
  vector : Byte := 0
  state : Byte := 0
  onEntry : Mask := ⟨0xFE, 0x02⟩
  onReti : Mask := ⟨0xFD, 0x00⟩
  resetTo : Byte := 0
  entries : Nat := 0
  retis : Nat := 0
  resets : Nat := 0
deriving DecidableEq

instance : Peripheral StateLatch where
  reset d := { d with state := d.resetTo, resets := d.resets + 1 }
  irqState d := d.state
  interruptEntry d :=
    (d.vector, { d with state := d.onEntry.apply d.state, entries := d.entries + 1 })
  interruptReti d :=
    { d with state := d.onReti.apply d.state, retis := d.retis + 1 }

end Z80
