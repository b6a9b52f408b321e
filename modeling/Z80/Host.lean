import Z80.Run
import Z80.Context
import Z80.RegisterAccess

/-!
What a host does with a processor. It runs it on a bus for a number of
T-states, and between runs it makes requests of the processor alone. The
history of a list of calls is what a host can tell after each of them.
-/
namespace Z80

inductive Request (δ : Type)
  | setIrqLine (s : LineState)
  | setNmiLine (s : LineState)
  | setRegister (reg : RegisterName) (v : Word)
  | setContext (ctx : Context)
  | importImage (bytes : List Byte)
  | setConfig (c : Config)
  | reset
  | resetWith (chain : Option (DaisyChain δ))
  /-- Writes straight to the register file. -/
  | modifyRegs (g : Registers → Registers)
  /-- Changes one device of the chain from outside. -/
  | modifyDevice (i : Nat) (g : δ → δ)
  /-- Puts a new chain into the place of an attached one, without a reset. -/
  | replaceChain (devices : List δ) (length_le : devices.length ≤ maxDevices)

namespace Cpu

variable {δ : Type} [Peripheral δ]

/-- Serves a request in place. -/
def serve (cpu : Cpu δ) : Request δ → Except ContextError Unit × Cpu δ
  | .setIrqLine s => (.ok (), cpu.setIrqLine s)
  | .setNmiLine s => (.ok (), cpu.setNmiLine s)
  | .setRegister reg v => (.ok (), cpu.setRegister reg v)
  | .setContext ctx => (takeContext ctx).apply cpu
  | .importImage bytes => (takeImage bytes).apply cpu
  | .setConfig c => (.ok (), { cpu with config := c })
  | .reset => (.ok (), cpu.reset)
  | .resetWith chain => (.ok (), cpu.resetWith chain)
  | .modifyRegs g => (.ok (), cpu.modifyRegs g)
  | .modifyDevice i g => (.ok (), cpu.modifyDevice i g)
  | .replaceChain devices length_le =>
    (.ok (), { cpu with chain := cpu.chain.map fun _ => { devices, length_le } })

end Cpu

inductive Call (δ : Type)
  | run (budget : BitVec 32)
  | request (r : Request δ)

inductive Reply
  /-- The T-states of a run. -/
  | spent (n : BitVec 32)
  | done
  | refused (e : ContextError)
deriving DecidableEq

def Reply.ofOutcome : Except ContextError Unit → Reply
  | .ok _ => .done
  | .error e => .refused e

/-- All that a host can tell after a call. Of the processor only its
configuration is left out. -/
structure Observation (σ δ : Type) where
  reply : Reply
  context : Context
  total : Nat
  devices : Option (List δ)
  bus : σ

/-- The call only sets the configuration. -/
def Call.isConfig {δ : Type} : Call δ → Bool
  | .request (.setConfig _) => true
  | _ => false

namespace Machine

variable {σ δ : Type}

def observe (reply : Reply) (m : Machine σ δ) : Observation σ δ where
  reply
  context := m.cpu.context
  total := m.cpu.total
  devices := m.cpu.chain.map DaisyChain.devices
  bus := m.bus

variable [Bus σ] [Peripheral δ]

def serve (m : Machine σ δ) : Call δ → Reply × Machine σ δ
  | .run budget =>
    let (n, m) := m.run budget
    (.spent n, m)
  | .request r =>
    let (outcome, cpu) := m.cpu.serve r
    (.ofOutcome outcome, ⟨cpu, m.bus⟩)

/-- The observations after the calls, one by one. A new configuration has
nothing to show. -/
def history (m : Machine σ δ) : List (Call δ) → List (Observation σ δ)
  | [] => []
  | call :: calls =>
    let (reply, m) := m.serve call
    if call.isConfig then m.history calls else m.observe reply :: m.history calls

end Machine

/-- The states that a host can bring a processor to by runs on any bus and by
the requests that it allows itself. It may also exchange the attached chains
of two processors. -/
inductive Cpu.Reachable {δ : Type} [Peripheral δ] (allowed : Request δ → Prop) : Cpu δ → Prop
  | new (config : Config) : Reachable allowed { config }
  | run {σ : Type} [Bus σ] {cpu : Cpu δ} (bus : σ) (budget : BitVec 32) :
    Reachable allowed cpu → Reachable allowed ((Machine.mk cpu bus).run budget).2.cpu
  | serve {cpu next : Cpu δ} {r : Request δ} :
    Reachable allowed cpu → allowed r → (cpu.serve r).2 = next → Reachable allowed next
  | exchange {cpu other : Cpu δ} {chain given : DaisyChain δ} :
    Reachable allowed cpu → Reachable allowed other → cpu.chain = some chain →
      other.chain = some given → Reachable allowed { cpu with chain := some given }

end Z80
