import Z80.Bus.Flat
import Z80.Proofs.Stream
import Z80.Proofs.Traces

/-!
Operations on a memory operand. Each reads the byte of its cell or writes it,
or both, and makes no other access; what it does to the registers depends on
the byte, on the accumulator and on the flags, and on few registers beside
the cell.
-/
namespace Z80

open Bus (Flat)

variable {δ : Type}

namespace Registers

/-- The registers after a memory operand was changed, which may have been
copied to one of them. -/
def changed (copy : Option Reg8) (res : Result 8) (r : Registers) : Registers :=
  match copy with
  | some dst => { r with f := res.flags }.setReg8 dst res.value
  | none => { r with f := res.flags }

section

variable (r : Registers) (dst x : Reg8) (v : Byte) (c : Cell)

theorem reg8_setReg8 : (r.setReg8 dst v).reg8 x = if x = dst then v else r.reg8 x := by
  cases dst <;> cases x <;> rfl

@[simp] theorem f_setReg8 : (r.setReg8 dst v).f = r.f := by
  cases dst <;> rfl

@[simp] theorem wz_setReg8 : (r.setReg8 dst v).wz = r.wz := by
  cases dst <;> rfl

@[simp] theorem reg8_setFlags (f : Flags) : { r with f }.reg8 x = r.reg8 x := by
  cases x <;> rfl

@[simp] theorem f_changed (copy : Option Reg8) (res : Result 8) :
    (r.changed copy res).f = res.flags := by
  cases copy <;> simp [changed]

@[simp] theorem wz_changed (copy : Option Reg8) (res : Result 8) :
    (r.changed copy res).wz = r.wz := by
  cases copy <;> simp [changed]

@[simp] theorem a_changed (res : Result 8) : (r.changed none res).a = r.a := rfl

theorem reg8_changed (copy : Option Reg8) (res : Result 8) :
    (r.changed copy res).reg8 x = if copy = some x then res.value else r.reg8 x := by
  cases copy with
  | none => simp [changed]
  | some dst => simp only [changed, reg8_setReg8, reg8_setFlags, Option.some.injEq, eq_comm]

@[simp] theorem reg8_latchCell : (r.latchCell c).reg8 x = r.reg8 x := by
  cases c <;> cases x <;> rfl

@[simp] theorem f_latchCell : (r.latchCell c).f = r.f := by
  cases c <;> rfl

end

end Registers

/-- What an instruction does with a memory operand. -/
inductive CellOp
  | inc
  | dec
  | alu (op : AluOp)
  | load (dst : Reg8)
  | store (src : Reg8)
  | storeImm (n : Byte)
  | bits (op : BitOp) (copy : Option Reg8)

/-- The part that a memory operand plays for the registers beside it. -/
inductive Role
  /-- Only the accumulator and the flags take part. -/
  | change
  /-- A bit is tested, which shows the address latch. -/
  | test
  | store (src : Reg8)
  | receive (dst : Reg8)
deriving DecidableEq

/-- The register that has the byte of the operand afterwards. -/
def Role.target : Role → Option Reg8
  | .receive dst => some dst
  | _ => none

namespace CellOp

def instr (m : Cell) : CellOp → Instr
  | .inc => .inc (.mem m)
  | .dec => .dec (.mem m)
  | .alu op => .alu op (.mem m)
  | .load dst => .load dst m
  | .store src => .store m src
  | .storeImm n => .storeImm m n
  | .bits op copy => .bits op (.mem m) copy

def role : CellOp → Role
  | .load dst => .receive dst
  | .store src => .store src
  | .bits (.bit _) _ => .test
  | .bits _ (some dst) => .receive dst
  | _ => .change

/-- The operation without a copy of the changed byte. -/
def bare : CellOp → CellOp
  | .bits op _ => .bits op none
  | op => op

/-- The byte that the operation stores, if it stores one, and the registers
after it. -/
def apply (v : Byte) (r : Registers) : CellOp → Option Byte × Registers
  | .inc => (some (Alu.inc v r.f).value, r.changed none (Alu.inc v r.f))
  | .dec => (some (Alu.dec v r.f).value, r.changed none (Alu.dec v r.f))
  | .alu op => (none, r.setResult (op.apply r.a v r.f))
  | .load dst => (none, r.setReg8 dst v)
  | .store src => (some (r.reg8 src), r)
  | .storeImm n => (some n, r)
  | .bits (.bit n) _ => (none, { r with f := Alu.bit n v r.wz.high r.f })
  | .bits (.rotate rot) copy => (some (rot.apply v r.f).value, r.changed copy (rot.apply v r.f))
  | .bits (.res n) copy => (some (Alu.res n v), r.changed copy ⟨Alu.res n v, r.f⟩)
  | .bits (.set n) copy => (some (Alu.set n v), r.changed copy ⟨Alu.set n v, r.f⟩)

theorem closesLoop_instr (op : CellOp) (m : Cell) : (op.instr m).closesLoop = false := by
  cases op <;> rfl

section

variable (op : CellOp) (v : Byte) {r s : Registers}

theorem wz_apply : (op.apply v r).2.wz = r.wz := by
  cases op with
  | bits op _ => cases op <;> simp [apply]
  | _ => simp [apply, Registers.setResult]

/-- The registers beside the cell: one may have the byte of the cell, and the
accumulator what it has without the copy. -/
theorem reg8_apply (ha : s.a = r.a) (hf : s.f = r.f) (x : Reg8) :
    (op.apply v r).2.reg8 x =
      if op.role.target = some x then (op.apply v r).1.getD v
      else if x = .a then (op.bare.apply v s).2.a else r.reg8 x := by
  have hkept : (if x = .a then s.a else r.reg8 x) = r.reg8 x := by
    split
    · subst x
      exact ha
    · rfl
  cases op with
  | inc | dec | store _ | storeImm _ =>
      simp [apply, role, Role.target, bare, Registers.reg8_changed, hkept]
  | alu op =>
      simp only [apply, role, Role.target, bare, Registers.setResult, ha, hf]
      cases x <;> rfl
  | load dst =>
      simp only [apply, role, Role.target, bare, Registers.reg8_setReg8, Option.some.injEq,
        Option.getD_none, eq_comm (a := dst)]
      split
      · rfl
      · rename_i hx
        rw [← hkept]
        split
        · subst x
          exact ((Registers.reg8_setReg8 s dst .a v).trans (if_neg hx)).symm
        · rfl
  | bits op copy =>
      cases op with
      | bit n => simp [apply, role, Role.target, bare, hkept]
      | rotate _ | res _ | set _ =>
          cases copy <;>
            simp [apply, role, Role.target, bare, Registers.reg8_changed, hkept]

theorem f_bare (ha : s.a = r.a) (hf : s.f = r.f) (hwz : op.role = .test → s.wz = r.wz) :
    (op.bare.apply v s).2.f = (op.apply v r).2.f := by
  cases op with
  | bits op copy =>
      cases op with
      | bit n => simp only [bare, apply, hf, hwz rfl]
      | rotate _ | res _ | set _ => simp only [bare, apply, Registers.f_changed, hf]
  | _ => simp [bare, apply, Registers.setResult, hf, ha]

/-- A register that is stored is the one before, and no other byte depends on
a register beside the cell. -/
theorem stored_apply (hf : s.f = r.f) :
    (op.apply v r).1 = match op.role with
      | .store src => some (r.reg8 src)
      | _ => (op.bare.apply v s).1 := by
  cases op with
  | bits op copy => cases op <;> cases copy <;> simp only [bare, apply, role, hf]
  | _ => simp only [bare, apply, role, hf]

end

end CellOp

/-- The bus after a byte was stored, if there is one. -/
def Bus.Flat.pokeSome (a : Word) (v : Option Byte) (bus : Flat) : Flat :=
  match v with
  | some v => bus.poke a v
  | none => bus

theorem Bus.Flat.peek_pokeSome_of_ne {a x : Word} (h : x ≠ a) (v : Option Byte) (bus : Flat) :
    (bus.pokeSome a v).peek x = bus.peek x := by
  cases v with
  | some v => exact Memory.get_set_of_ne bus.memory v h
  | none => rfl

theorem Bus.Flat.peek_pokeSome (a : Word) (v : Option Byte) (bus : Flat) :
    (bus.pokeSome a v).peek a = v.getD (bus.peek a) := by
  cases v with
  | some v => exact Memory.get_set_self bus.memory a v
  | none => rfl

namespace Exec

section

variable [Peripheral δ]

theorem execute_cell (op : CellOp) (c : Cell) (m : Machine Flat δ) :
    execute (op.instr c) m =
      let addr := m.cpu.regs.cellAddress c
      let res := op.apply (m.bus.peek addr) (m.cpu.regs.latchCell c)
      (false, ⟨m.cpu.modifyRegs fun _ => res.2, m.bus.pokeSome addr res.1⟩) := by
  cases op with
  | inc | dec | alu _ | load _ | store _ | storeImm _ => cases c <;> rfl
  | bits op copy => cases op <;> cases copy <;> cases c <;> rfl

end

/-! An operation on a cell makes its accesses at the address of the cell. -/

section

variable {σ : Type} {P : Bus.Event → Prop} {m : Machine σ δ}

theorem Notes.address (c : Cell) :
    Notes P (address c : Exec (Bus.Logged σ) δ Word) (address c) m :=
  .regs (.bind (.modifyCpu _) (.pure _))

theorem Notes.store (copy : Option Reg8) (v : Byte) :
    Notes P (bits.store copy v : Exec (Bus.Logged σ) δ Unit) (bits.store copy v) m := by
  cases copy with
  | some _ => exact .modifyCpu _
  | none => exact .pure _

variable [Bus σ]

theorem Notes.readCell (c : Cell) :
    Notes (fun e => e.isAt (m.cpu.regs.cellAddress c))
      (readPlace (.mem c) : Exec (Bus.Logged σ) δ Byte) (readPlace (.mem c)) m :=
  .bind (.address c) (.read fun _ => decide_eq_true rfl)

theorem Notes.modifyCell (c : Cell) (op : Byte → Flags → Result 8) :
    Notes (fun e => e.isAt (m.cpu.regs.cellAddress c))
      (modifyPlace (.mem c) op : Exec (Bus.Logged σ) δ Byte) (modifyPlace (.mem c) op) m :=
  .bind (.address c) <| .bind (.read fun _ => decide_eq_true rfl) <| .regs <|
    .bind (.write (fun _ => decide_eq_true rfl) _) (.bind (.modifyCpu _) (.pure _))

theorem Notes.cell [Peripheral δ] (op : CellOp) (c : Cell) :
    Notes (fun e => e.isAt (m.cpu.regs.cellAddress c))
      (execute (op.instr c) : Exec (Bus.Logged σ) δ Bool) (execute (op.instr c)) m := by
  cases op with
  | inc | dec => exact .bind (.discard (.modifyCell c _)) (.pure _)
  | alu _ => exact .bind (.bind (.readCell c) (.modifyCpu _)) (.pure _)
  | load _ =>
      exact .bind (.bind (.address c) (.bind (.read fun _ => decide_eq_true rfl) (.modifyCpu _)))
        (.pure _)
  | store _ =>
      exact .bind (.bind (.address c) (.regs (.write (fun _ => decide_eq_true rfl) _))) (.pure _)
  | storeImm _ =>
      exact .bind (.bind (.address c) (.write (fun _ => decide_eq_true rfl) _)) (.pure _)
  | bits op copy =>
      cases op with
      | bit _ => exact .bind (.bind (.readCell c) (.regs (.modifyCpu _))) (.pure _)
      | rotate _ | res _ | set _ =>
          exact .bind (.bind (.modifyCell c _) (.store copy _)) (.pure _)

end

end Exec
end Z80
