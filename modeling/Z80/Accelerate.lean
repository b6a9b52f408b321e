import Z80.Step

/-!
Idle loops in one go. Right after the instruction that closes or opens a
known loop, as many whole rounds are skipped as fit into the rest of the
run with at least one T-state left over. Three loops are known: a jump to
itself, a `NOP` or `EI` with a jump back to it, and the counting down of a
register pair. Nothing is skipped while an interrupt could be taken. The
bytes of a loop are looked at with plain memory reads.
-/
namespace Z80

/-- The whole rounds of a loop that leave at least one T-state. -/
def skippable (remaining cost : Nat) : Nat :=
  (remaining - 1) / cost

/-- A jump without a condition. -/
def Instr.isJump : Instr → Bool
  | .jp _ | .jr _ => true
  | _ => false

/-- The pairs whose countdown is known. -/
inductive Counter
  | bc | de | hl
deriving DecidableEq

namespace Counter

def ofInstr? : Instr → Option Counter
  | .dec16 .bc => some .bc
  | .dec16 .de => some .de
  | .dec16 .hl => some .hl
  | _ => none

def pair : Counter → Reg16
  | .bc => .bc
  | .de => .de
  | .hl => .hl

/-- The code of the pair's high byte as an operand. The low byte follows. -/
def code : Counter → Byte
  | .bc => 0
  | .de => 2
  | .hl => 4

/-- The opcodes of `LD A,hi` and `OR lo`, or of `LD A,lo` and `OR hi`. -/
def isTest (c : Counter) (first second : Byte) : Bool :=
  first == 0x78 + c.code && second == 0xB1 + c.code ||
    first == 0x79 + c.code && second == 0xB0 + c.code

/-- A round without its jump: `DEC`, `LD` and `OR`. -/
def bodyCost : Nat :=
  (Instr.dec16 .bc).cost + (Instr.ld .a .b).cost + (Instr.alu .or (.reg .b)).cost

end Counter

def Cpu.canAccelerate {δ : Type} (cpu : Cpu δ) (remaining : Nat) : Bool :=
  cpu.config.loopAcceleration && 0 < remaining && !cpu.interruptPossible

namespace Registers

/-- The registers after `n` more rounds of a jump loop whose jump stands at
`addr`. -/
def afterIdle (addr : Word) (refreshes : Nat) (enable : Bool) (r : Registers) : Registers :=
  { refresh refreshes r with prepc := addr, iff2 := r.iff2 || enable }

/-- The registers after `n` more rounds of a countdown whose `DEC` stands at
`addr`. The last round that ran to its end has tested one more than what is
left. -/
def afterCountdown (c : Counter) (addr : Word) (n : Nat) (r : Registers) : Registers :=
  let left := r.reg16 c.pair - BitVec.ofNat 16 n
  let tested := (left + 1).high ||| (left + 1).low
  { (refresh (4 * n) r).setReg16 c.pair left with
    a := tested
    f := Flags.ofLogic tested
    wz := addr
    prepc := addr }

end Registers

namespace Exec

variable {σ δ : Type} [Bus σ]

/-- After a jump at `addr`. Gives the T-states that were skipped. -/
def skipIdle (addr : Word) (cost remaining : Nat) : Exec σ δ Nat := do
  let r ← regs
  if r.pc = addr then
    skip cost 1 false
  else if r.pc = addr - 1 then
    let filler ← read r.pc
    if filler = 0x00 then
      skip (Instr.nop.cost + cost) 2 false
    else if filler = 0xFB ∧ r.iff1 then
      skip (Instr.ei.cost + cost) 2 true
    else
      return 0
  else
    return 0
where
  skip (round refreshes : Nat) (enable : Bool) : Exec σ δ Nat := do
    let n := skippable remaining round
    if n = 0 then
      return 0
    modifyRegs (Registers.afterIdle addr (refreshes * n) enable)
    return n * round

/-- The cost of the jump that closes a countdown which starts at `addr`, if
there is one after the test. -/
def countdownJump (addr pc : Word) : Exec σ δ (Option Nat) := do
  match (← read (pc + 2)).toNat with
  | 0x20 =>
    if (← read (pc + 3)) = 0xFB then
      return some ((Instr.jrIf .nz 0).cost + (Instr.jrIf .nz 0).extra)
    else
      return none
  | 0xC2 =>
    if (← read16 (pc + 3)) = addr then
      return some (Instr.jpIf .nz 0).cost
    else
      return none
  | _ => return none

/-- After the `DEC` of a counter. Gives the T-states that were skipped. -/
def skipCountdown (c : Counter) (remaining : Nat) : Exec σ δ Nat := do
  let r ← regs
  let count := (r.reg16 c.pair).toNat
  if count ≤ 1 ∨ 0xFFFC ≤ r.pc.toNat then
    return 0
  let first ← read r.pc
  let second ← read (r.pc + 1)
  if !c.isTest first second then
    return 0
  let addr := r.pc - 1
  match ← countdownJump addr r.pc with
  | none => return 0
  | some jump =>
    let round := Counter.bodyCost + jump
    let n := min (skippable remaining round) count
    if n = 0 then
      return 0
    modifyRegs (Registers.afterCountdown c addr n)
    return n * round

/-- Skips rounds of a known loop after an operation, where that is allowed.
Gives the T-states that were skipped. -/
def accelerate (op : Operation) (remaining : Nat) : Exec σ δ Nat := do
  let cpu ← cpu
  if cpu.canAccelerate remaining then
    if op.instr.isJump then
      skipIdle (cpu.regs.prepc + (if op.indexed then 1 else 0)) op.instr.cost remaining
    else
      match Counter.ofInstr? op.instr with
      | some c => skipCountdown c remaining
      | none => return 0
  else
    return 0

end Exec
end Z80
