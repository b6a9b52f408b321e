import Z80.Daisy.Peripheral

/-!
The interrupt daisy chain. The devices stand in order of priority, the
highest first. The chain latches their state bits and, from these, which
device answers the next acknowledge and which one hears the next return
from interrupt. The latches change only when the chain polls its devices.
-/
namespace Z80

def maxDevices : Nat := 4

structure DaisyChain (δ : Type) where
  devices : List δ
  length_le : devices.length ≤ maxDevices
  states : Vector Byte 4 := Vector.replicate 4 0
  request : Option Nat := none
  service : Option Nat := none

inductive DaisyError
  | tooManyDevices (max actual : Nat)
deriving DecidableEq

def DaisyError.message : DaisyError → String
  | .tooManyDevices max actual =>
    s!"daisy chain supports at most {max} devices, got {actual}"

namespace DaisyChain

open Peripheral

variable {δ : Type}

def ofDevices (devices : List δ) : Except DaisyError (DaisyChain δ) :=
  if h : devices.length ≤ maxDevices then .ok { devices, length_le := h }
  else .error (.tooManyDevices maxDevices devices.length)

def size (c : DaisyChain δ) : Nat :=
  c.devices.length

def isEmpty (c : DaisyChain δ) : Bool :=
  c.devices.isEmpty

/-- The first device that asks for service, unless a device above it is
already under service. -/
def firstRequest : List Byte → Option Nat
  | [] => none
  | s :: rest =>
    if requests s then some 0
    else if inService s then none
    else (firstRequest rest).map (· + 1)

/-- The first device under service. -/
def firstInService (states : List Byte) : Option Nat :=
  states.findIdx? inService

def setDevice (i : Nat) (d : δ) (c : DaisyChain δ) : DaisyChain δ :=
  { c with
    devices := c.devices.set i d
    length_le := by simpa using c.length_le }

/-- Changes one device without a poll. -/
def modifyDevice (i : Nat) (g : δ → δ) (c : DaisyChain δ) : DaisyChain δ :=
  { c with
    devices := c.devices.modify i g
    length_le := by simpa using c.length_le }

/-- The chain with other latches and the same devices. -/
def restore (states : Vector Byte 4) (request service : Option Nat)
    (c : DaisyChain δ) : DaisyChain δ :=
  { c with states, request, service }

def setState (slot : Fin 4) (v : Byte) (c : DaisyChain δ) : DaisyChain δ :=
  { c with states := c.states.set slot.val v slot.isLt }

variable [Peripheral δ]

/-- Resets every device and clears the latches. -/
def reset (c : DaisyChain δ) : DaisyChain δ :=
  { devices := c.devices.map Peripheral.reset
    length_le := by simpa using c.length_le }

/-- Reads every device and finds out anew which one is served and which one
may ask. Slots without a device keep what they hold. -/
def arbitrate (c : DaisyChain δ) : DaisyChain δ :=
  let polled := c.devices.map irqState
  { c with
    states := Vector.ofFn fun i => polled[i.val]?.getD c.states[i]
    request := firstRequest polled
    service := firstInService polled }

/-- Answers an acknowledge with the vector of the requesting device. -/
def acknowledge (c : DaisyChain δ) : Option Byte × DaisyChain δ :=
  match c.request with
  | none => (none, c)
  | some i =>
    match c.devices[i]? with
    | none => (none, c)
    | some d =>
      let (vector, d) := interruptEntry d
      (some vector, arbitrate (c.setDevice i d))

/-- Tells the device under service that the processor has returned. -/
def reti (c : DaisyChain δ) : DaisyChain δ :=
  match c.service with
  | none => c
  | some i => arbitrate (c.modifyDevice i interruptReti)

end DaisyChain
end Z80
