import Z80.Cpu

/-!
The state of a processor as a value that can be kept and restored: all that
has an influence on what it does next. A context is also written as an image
of 41 bytes, words with the low byte first. The count of T-states and the
configuration are not part of it, nor are the devices of a chain.
-/
namespace Z80

structure Context where
  regs : Registers
  q : Flags
  eiDelay : Bool
  afterLdAIR : Bool
  irqLine : LineState
  nmiLine : LineState
  nmiPending : Bool
  daisyStates : Vector Byte 4
  daisyRequest : Option Byte
  daisyService : Option Byte
deriving DecidableEq

inductive ContextError
  | wrongSize (expected actual : Nat)
  | invalidMode (mode : Byte)
  | invalidDaisyIndex (index : Byte) (devices : Nat)
deriving DecidableEq

def ContextError.message : ContextError → String
  | .wrongSize expected actual =>
    s!"context image is {actual} bytes, expected {expected}"
  | .invalidMode mode => s!"invalid interrupt mode {mode.toNat}"
  | .invalidDaisyIndex index devices =>
    s!"daisy chain index {index.toNat} out of range for {devices} devices"

namespace Context

/-- The length of an image. -/
def size : Nat := 41

/-- Written for an absent index. -/
def noDevice : Byte := 0xFF

def indexToByte (index : Option Byte) : Byte :=
  index.getD noDevice

def indexOfByte (b : Byte) : Except ContextError (Option Byte) :=
  if b = noDevice then .ok none
  else if b.toNat < maxDevices then .ok (some b)
  else .error (.invalidDaisyIndex b maxDevices)

/-- Six truth values in one byte, from bit 0 up. -/
def latches (ctx : Context) : Byte :=
  BitVec.ofNat 8 <|
    ctx.regs.iff1.toNat + 2 * ctx.regs.iff2.toNat + 4 * ctx.regs.halted.toNat +
      8 * ctx.eiDelay.toNat + 16 * ctx.afterLdAIR.toNat + 32 * ctx.nmiPending.toNat

def toBytes (ctx : Context) : List Byte :=
  let r := ctx.regs
  let s := ctx.daisyStates
  [r.f.toByte, r.a, r.c, r.b, r.e, r.d, r.l, r.h,
    r.ixl, r.ixh, r.iyl, r.iyh, r.sp.low, r.sp.high, r.pc.low, r.pc.high,
    r.f'.toByte, r.a', r.c', r.b', r.e', r.d', r.l', r.h',
    r.wz.low, r.wz.high, r.prepc.low, r.prepc.high,
    r.i, r.r, r.im, ctx.latches,
    ctx.irqLine.toByte, ctx.nmiLine.toByte, ctx.q.toByte,
    s[0], s[1], s[2], s[3],
    indexToByte ctx.daisyRequest, indexToByte ctx.daisyService]

theorem slots_eq (s : Vector Byte 4) : #v[s[0], s[1], s[2], s[3]] = s := by
  ext i hi
  match i, hi with
  | 0, _ | 1, _ | 2, _ | 3, _ => rfl

/-- Reads an image. The faults are looked for in this order: its length, the
interrupt mode, the index of the request, the index under service. -/
def ofBytes : List Byte → Except ContextError Context
  | f :: a :: c :: b :: e :: d :: l :: h ::
      ixl :: ixh :: iyl :: iyh :: spl :: sph :: pcl :: pch ::
      f' :: a' :: c' :: b' :: e' :: d' :: l' :: h' ::
      wzl :: wzh :: prel :: preh ::
      i :: r :: im :: latches ::
      irq :: nmi :: q ::
      s0 :: s1 :: s2 :: s3 ::
      request :: service :: [] =>
    if 2 < im.toNat then .error (.invalidMode im)
    else do
      let daisyRequest ← indexOfByte request
      let daisyService ← indexOfByte service
      return {
        regs := {
          a, f := Flags.ofByte f, b, c, d, e, h, l
          a', f' := Flags.ofByte f', b', c', d', e', h', l'
          ixh, ixl, iyh, iyl
          sp := Word.ofBytes sph spl
          pc := Word.ofBytes pch pcl
          i, r
          wz := Word.ofBytes wzh wzl
          prepc := Word.ofBytes preh prel
          iff1 := latches.getLsbD 0
          iff2 := latches.getLsbD 1
          im
          halted := latches.getLsbD 2 }
        q := Flags.ofByte q
        eiDelay := latches.getLsbD 3
        afterLdAIR := latches.getLsbD 4
        irqLine := LineState.ofByte irq
        nmiLine := LineState.ofByte nmi
        nmiPending := latches.getLsbD 5
        daisyStates := #v[s0, s1, s2, s3]
        daisyRequest
        daisyService }
  | bytes => .error (.wrongSize size bytes.length)

end Context

namespace Cpu

variable {δ : Type}

def context (cpu : Cpu δ) : Context where
  regs := cpu.regs
  q := cpu.q
  eiDelay := cpu.eiDelay
  afterLdAIR := cpu.afterLdAIR
  irqLine := cpu.irqLine
  nmiLine := cpu.nmiLine
  nmiPending := cpu.nmiPending
  daisyStates := (cpu.chain.map DaisyChain.states).getD (Vector.replicate 4 0)
  daisyRequest := (cpu.chain.bind DaisyChain.request).map (BitVec.ofNat 8)
  daisyService := (cpu.chain.bind DaisyChain.service).map (BitVec.ofNat 8)

/-- The number of devices that an index can name. -/
def devices (cpu : Cpu δ) : Nat :=
  (cpu.chain.map DaisyChain.size).getD 0

/-- Work on a processor in place. Where it fails on the way, what it has written
by then stays written. -/
abbrev Update (δ α : Type) : Type := ExceptT ContextError (StateM (Cpu δ)) α

namespace Update

variable {α : Type}

/-- The outcome, and the processor as it is left. -/
def apply (u : Update δ α) (cpu : Cpu δ) : Except ContextError α × Cpu δ :=
  u.run.run cpu

/-- The processor as it is left by an update that does not fail. -/
def result (u : Update δ α) (cpu : Cpu δ) : Except ContextError (Cpu δ) :=
  match u.apply cpu with
  | (.ok _, next) => .ok next
  | (.error e, _) => .error e

end Update

/-- Fails for an index that names none of the devices. -/
def checkIndex (devices : Nat) : Option Byte → Update δ Unit
  | none => pure ()
  | some index =>
    if index.toNat < devices then pure () else throw (.invalidDaisyIndex index devices)

/-- Takes over a context whose interrupt mode exists and whose indices name
devices of the attached chain. The chain keeps its devices and takes the latches
of the context. -/
def takeContext (ctx : Context) : Update δ Unit := do
  if 2 < ctx.regs.im.toNat then
    throw (.invalidMode ctx.regs.im)
  let devices := (← get).devices
  checkIndex devices ctx.daisyRequest
  checkIndex devices ctx.daisyService
  modify ({ · with regs := ctx.regs })
  modify ({ · with q := ctx.q })
  modify ({ · with eiDelay := ctx.eiDelay })
  modify ({ · with afterLdAIR := ctx.afterLdAIR })
  modify ({ · with irqLine := ctx.irqLine })
  modify ({ · with nmiLine := ctx.nmiLine })
  modify ({ · with nmiPending := ctx.nmiPending })
  modify fun cpu =>
    { cpu with
      chain := cpu.chain.map <| DaisyChain.restore ctx.daisyStates
        (ctx.daisyRequest.map BitVec.toNat) (ctx.daisyService.map BitVec.toNat) }

def takeImage (bytes : List Byte) : Update δ Unit := do
  takeContext (← Context.ofBytes bytes)

def exportImage (cpu : Cpu δ) : List Byte :=
  cpu.context.toBytes

/-- The processor that has taken over a context. -/
def setContext (ctx : Context) (cpu : Cpu δ) : Except ContextError (Cpu δ) :=
  (takeContext ctx).result cpu

/-- The processor that has taken over the context of an image. -/
def importImage (bytes : List Byte) (cpu : Cpu δ) : Except ContextError (Cpu δ) :=
  (takeImage bytes).result cpu

end Cpu
end Z80
