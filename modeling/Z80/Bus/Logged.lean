import Z80.Bus.Basic

/-!
A bus that keeps a list of the accesses made through it, oldest first. Input,
output, memory writes and interrupt acknowledges are always kept; memory
reads and instruction fetches only while tracing.
-/
namespace Z80.Bus

inductive Event
  | read (a : Word) (v : Byte)
  | write (a : Word) (v : Byte)
  | fetchOpcode (a : Word) (v : Byte)
  | fetchOperand (a : Word) (v : Byte)
  | ioRead (a : Word) (v : Byte)
  | ioWrite (a : Word) (v : Byte)
  | irqAck (data : BitVec 32)
deriving DecidableEq

/-- Events that are kept only while tracing. -/
def Event.isTrace : Event → Bool
  | .read .. | .fetchOpcode .. | .fetchOperand .. => true
  | .write .. | .ioRead .. | .ioWrite .. | .irqAck .. => false

structure Logged (σ : Type) where
  inner : σ
  trace : Bool := false
  events : Array Event := #[]

namespace Logged

variable {σ α : Type}

def keep (trace : Bool) (events : Array Event) (e : Event) : Array Event :=
  if trace || !e.isTrace then events.push e else events

/-- Runs an access of the inner bus and notes it. -/
def noting (event : α → Event) (act : StateM σ α) : StateM (Logged σ) α :=
  fun ⟨inner, trace, events⟩ =>
    let (v, inner) := act inner
    (v, ⟨inner, trace, keep trace events (event v)⟩)

/-- Forgets the events noted so far. -/
def clear : Logged σ → Logged σ
  | ⟨inner, trace, _⟩ => ⟨inner, trace, #[]⟩

end Logged

instance {σ : Type} [Bus σ] : Bus (Logged σ) where
  read a := Logged.noting (.read a) (Bus.read a)
  write a v := Logged.noting (fun _ => .write a v) (Bus.write a v)
  ioRead a := Logged.noting (.ioRead a) (Bus.ioRead a)
  ioWrite a v := Logged.noting (fun _ => .ioWrite a v) (Bus.ioWrite a v)
  fetchOpcode a := Logged.noting (.fetchOpcode a) (Bus.fetchOpcode a)
  fetchOperand a := Logged.noting (.fetchOperand a) (Bus.fetchOperand a)
  irqAck := Logged.noting .irqAck Bus.irqAck

end Z80.Bus
