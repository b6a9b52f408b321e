import Z80.Decode
import Z80.Machine

/-!
Fetching an instruction. Opcode bytes are fetched through the opcode side of
the bus and counted by the refresh register, the bytes after them through
the operand side. All fetches come before the instruction acts.
-/
namespace Z80

/-- An instruction as it stands in memory. -/
structure Operation where
  /-- It follows an index prefix. -/
  indexed : Bool
  instr : Instr
deriving DecidableEq

/-- The T-states of an operation that did or did not take its branch. -/
def Operation.cost (op : Operation) (taken : Bool) : Nat :=
  (if op.indexed then Timing.indexPrefix else 0) + op.instr.cost +
    (if taken then op.instr.extra else 0)

theorem Operation.four_le_cost (op : Operation) (taken : Bool) : 4 ≤ op.cost taken := by
  have := op.instr.four_le_cost
  unfold Operation.cost
  omega

namespace Exec

variable {σ δ : Type} [Bus σ]

def fetchForm : Form → Exec σ δ Instr
  | .fixed i => return i
  | .byte make => return make (← fetchOperand)
  | .word make => do
    let low ← fetchOperand
    let high ← fetchOperand
    return make (Word.ofBytes high low)

/-- What follows an index prefix. Another prefix is only looked at: the first
one then counts as an instruction that does nothing, and the second one
starts the next instruction. -/
def fetchIndexed (p : Pointer) : Exec σ δ Operation := do
  match Opcode.decode p (← peekOpcode) with
  | .index _ => return { indexed := false, instr := .nop }
  | .instr form =>
    passOpcode
    return { indexed := true, instr := ← fetchForm form }
  | .bits =>
    passOpcode
    let d ← fetchOperand
    return { indexed := true, instr := Instr.ofIndexedBits p d (← fetchOperand) }
  | .extended =>
    passOpcode
    let form := Form.ofExtended (← fetchOpcode)
    return { indexed := true, instr := ← fetchForm form }

def fetch : Exec σ δ Operation := do
  match Opcode.decode .hl (← fetchOpcode) with
  | .index p => fetchIndexed p
  | .instr form => return { indexed := false, instr := ← fetchForm form }
  | .bits => return { indexed := false, instr := Instr.ofBits (← fetchOpcode) }
  | .extended =>
    let form := Form.ofExtended (← fetchOpcode)
    return { indexed := false, instr := ← fetchForm form }

end Exec
end Z80
