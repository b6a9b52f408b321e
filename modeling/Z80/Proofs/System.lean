import Z80.Proofs.Boundary

/-!
The registers that instructions compute with, and the others. Ordinary
instructions leave alone the exchange set, the interrupt registers, the refresh
counter and the latches; the few that do not are named here. Of the ordinary
ones only those that branch write the program counter.
-/
namespace Z80

variable {σ δ : Type}

/-- The instruction may write other registers than those it computes with. -/
def Instr.isSystem : Instr → Bool
  | .ldSystem _ | .exAF | .exx | .retn | .reti | .halt | .di | .ei | .im _ => true
  | _ => false

/-- The instruction may go on elsewhere than behind its own bytes. -/
def Instr.branches : Instr → Bool
  | .jp _ | .jpIf .. | .jpPointer _ | .jr _ | .jrIf .. | .djnz _ | .call _ | .callIf .. | .ret
  | .retIf _ | .retn | .reti | .rst _ | .halt | .block .. => true
  | _ => false

namespace Registers

/-- The registers without those that instructions compute with. -/
def system (r : Registers) : Registers :=
  { r with
    a := 0, f := {}, b := 0, c := 0, d := 0, e := 0, h := 0, l := 0
    ixh := 0, ixl := 0, iyh := 0, iyl := 0
    sp := 0, pc := 0, r := 0, wz := 0 }

/-- The same with the counters of the instruction stream. -/
def rest (r : Registers) : Registers :=
  { r.system with pc := r.pc, r := r.r }

/-- The same with the refresh counter. -/
def beside (r : Registers) : Registers :=
  { r.system with r := r.r }

section

variable {r s : Registers}

theorem beside_of_rest (h : r.rest = s.rest) : r.beside = s.beside :=
  congrArg (fun t : Registers => { t with pc := 0 }) h

theorem system_of_beside (h : r.beside = s.beside) : r.system = s.system :=
  congrArg (fun t : Registers => { t with r := 0 }) h

theorem pc_of_rest (h : r.rest = s.rest) : r.pc = s.pc := by
  change r.rest.pc = s.rest.pc
  rw [h]

theorem r_of_beside (h : r.beside = s.beside) : r.r = s.r := by
  change r.beside.r = s.beside.r
  rw [h]

end

section

variable (r : Registers)

@[simp] theorem rest_setReg8 (dst : Reg8) (v : Byte) : (r.setReg8 dst v).rest = r.rest := by
  cases dst <;> rfl

@[simp] theorem rest_setReg16 (dst : Reg16) (w : Word) : (r.setReg16 dst w).rest = r.rest := by
  cases dst <;> rfl

@[simp] theorem rest_latchCell (m : Cell) : (r.latchCell m).rest = r.rest := by
  cases m <;> rfl

end

end Registers

namespace Exec

open Registers (system rest beside rest_setReg8 rest_setReg16 rest_latchCell)

variable {α β γ : Type} {f : Registers → γ}

theorem Keeps.mono {ε : Type} {g : Registers → ε} {act : Exec σ δ α} (h : Keeps f act)
    (hfg : ∀ {r s : Registers}, f r = f s → g r = g s) : Keeps g act :=
  fun m => hfg (h m)

theorem Keeps.beside {act : Exec σ δ α} (h : Keeps rest act) : Keeps beside act :=
  h.mono Registers.beside_of_rest

theorem Keeps.ite {c : Prop} [Decidable c] {x y : Exec σ δ α} (hx : Keeps f x)
    (hy : Keeps f y) : Keeps f (if c then x else y) := by
  split
  · exact hx
  · exact hy

theorem Keeps.discard {x : Exec σ δ α} (hx : Keeps f x) : Keeps f (discard x) :=
  hx

theorem Keeps.cpu : Keeps f (cpu : Exec σ δ (Cpu δ)) :=
  fun _ => rfl

theorem Keeps.branchIf (cc : Condition) {act : Exec σ δ Unit} (hact : Keeps f act) :
    Keeps f (branchIf cc act) :=
  .bind .regs fun _ => .ite (.bind hact fun _ => .pure _) (.pure _)

section

theorem keeps_address (m : Cell) : Keeps rest (address m : Exec σ δ Word) :=
  .bind .regs fun _ => .bind (.modifyRegs fun r => rest_latchCell r m) fun _ => .pure _

theorem keeps_indirect (m : Indirect) : Keeps rest (indirect m : Exec σ δ Word) := by
  cases m <;> exact .bind .regs fun _ => .pure _

theorem keeps_jump (w : Word) : Keeps beside (jump w : Exec σ δ Unit) :=
  .modifyRegs fun _ => rfl

theorem keeps_jumpRelative (d : Byte) : Keeps beside (jumpRelative d : Exec σ δ Unit) :=
  .bind .regs fun _ => keeps_jump _

theorem keeps_store (copy : Option Reg8) (v : Byte) :
    Keeps rest (bits.store copy v : Exec σ δ Unit) := by
  cases copy with
  | some dst => exact .modifyRegs fun r => rest_setReg8 r dst v
  | none => exact .pure _

theorem keeps_endRound (again : Bool) (last next : Flags) :
    Keeps beside (endRound again last next : Exec σ δ Bool) := by
  cases again <;> exact .bind (.modifyRegs fun _ => rfl) fun _ => .pure _

variable [Bus σ]

theorem keeps_write16 (a w : Word) : Keeps f (write16 a w : Exec σ δ Unit) :=
  .bind (.onBus _) fun _ => .onBus _

theorem keeps_push (w : Word) : Keeps rest (push w : Exec σ δ Unit) :=
  .bind .regs fun _ => .bind (.onBus _) fun _ => .bind (.onBus _) fun _ =>
    .modifyRegs fun _ => rfl

theorem keeps_pop : Keeps rest (pop : Exec σ δ Word) :=
  .bind .regs fun _ => .bind (.read16 _) fun _ => .bind (.modifyRegs fun _ => rfl) fun _ =>
    .pure _

theorem keeps_readPlace (p : Place) : Keeps rest (readPlace p : Exec σ δ Byte) := by
  cases p with
  | reg _ => exact .bind .regs fun _ => .pure _
  | mem m => exact .bind (keeps_address m) fun _ => .onBus _

theorem keeps_modifyPlace (p : Place) (op : Byte → Flags → Result 8) :
    Keeps rest (modifyPlace p op : Exec σ δ Byte) := by
  cases p with
  | reg dst =>
      exact .bind .regs fun _ => .bind (.modifyRegs fun r => rest_setReg8 r dst _) fun _ =>
        .pure _
  | mem m =>
      exact .bind (keeps_address m) fun _ => .bind (.onBus _) fun _ => .bind .regs fun _ =>
        .bind (.onBus _) fun _ => .bind (.modifyRegs fun _ => rfl) fun _ => .pure _

theorem keeps_callTo (addr : Word) : Keeps beside (callTo addr : Exec σ δ Unit) :=
  .bind .regs fun _ => .bind (keeps_push _).beside fun _ => .modifyRegs fun _ => rfl

theorem keeps_ret : Keeps beside (ret : Exec σ δ Unit) :=
  .bind keeps_pop.beside fun _ => keeps_jump _

theorem keeps_bits (op : BitOp) (p : Place) (copy : Option Reg8) :
    Keeps rest (bits op p copy : Exec σ δ Unit) := by
  cases op with
  | bit _ =>
      exact .bind (keeps_readPlace p) fun _ => .bind .regs fun _ => .modifyRegs fun _ => rfl
  | rotate _ | res _ | set _ =>
      exact .bind (keeps_modifyPlace p _) fun _ => keeps_store copy _

theorem keeps_rotateDigits (ra rm : (a m : Byte) → Byte) :
    Keeps rest (rotateDigits ra rm : Exec σ δ Unit) :=
  .bind .regs fun _ => .bind (.onBus _) fun _ => .bind (.onBus _) fun _ =>
    .modifyRegs fun _ => rfl

theorem keeps_block (kind : BlockKind) (dir : Direction) (repeats : Bool) :
    Keeps beside (block kind dir repeats : Exec σ δ Bool) := by
  cases kind with
  | copy | input | output =>
      exact .bind .regs fun _ => .bind (.onBus _) fun _ => .bind (.onBus _) fun _ =>
        .bind (.modifyRegs fun _ => rfl) fun _ => keeps_endRound _ _ _
  | search =>
      exact .bind .regs fun _ => .bind (.onBus _) fun _ =>
        .bind (.modifyRegs fun _ => rfl) fun _ => keeps_endRound _ _ _

variable [Peripheral δ]

theorem keeps_plain {i : Instr} (h : i.isSystem = false) (hbranches : i.branches = false) :
    Keeps rest (plain i : Exec σ δ Unit) := by
  cases i with
  | ldSystem _ | exAF | exx | di | ei | im _ => cases h
  | jp _ | jpIf _ _ | jpPointer _ | jr _ | jrIf _ _ | djnz _ | call _ | callIf _ _ | ret
  | retIf _ | retn | reti | rst _ | halt | block _ _ _ => cases hbranches
  | ld dst _ | ldImm dst _ => exact .modifyRegs fun r => rest_setReg8 r dst _
  | ldImm16 dst _ | inc16 dst | dec16 dst => exact .modifyRegs fun r => rest_setReg16 r dst _
  | ldFromSystem _ | ldSP _ | exDEHL | adc16 _ | sbc16 _ | daa | cpl | neg | rotateA _ =>
      exact .modifyRegs fun _ => rfl
  | add16 p _ => exact .modifyRegs fun r => rest_setReg16 r p.pair _
  | load dst m =>
      exact .bind (keeps_address m) fun _ => .bind (.onBus _) fun _ =>
        .modifyRegs fun r => rest_setReg8 r dst _
  | store m _ => exact .bind (keeps_address m) fun _ => .bind .regs fun _ => .onBus _
  | storeImm m _ => exact .bind (keeps_address m) fun _ => .onBus _
  | loadA src =>
      exact .bind (keeps_indirect src) fun _ => .bind (.onBus _) fun _ =>
        .modifyRegs fun _ => rfl
  | storeA dst =>
      exact .bind (keeps_indirect dst) fun _ => .bind .regs fun _ => .bind (.onBus _) fun _ =>
        .modifyRegs fun _ => rfl
  | loadPointer p _ =>
      exact .bind (.read16 _) fun _ => .modifyRegs fun r => rest_setReg16 r p.pair _
  | load16 dst _ => exact .bind (.read16 _) fun _ => .modifyRegs fun r => rest_setReg16 r dst _
  | storePointer _ _ | store16 _ _ =>
      exact .bind .regs fun _ => .bind (keeps_write16 _ _) fun _ => .modifyRegs fun _ => rfl
  | push _ => exact .bind .regs fun _ => keeps_push _
  | pop dst => exact .bind keeps_pop fun _ => .modifyRegs fun r => rest_setReg16 r dst _
  | exSP p =>
      exact .bind .regs fun _ => .bind (.read16 _) fun _ => .bind (keeps_write16 _ _) fun _ =>
        .modifyRegs fun r => rest_setReg16 r p.pair _
  | alu _ src => exact .bind (keeps_readPlace src) fun _ => .modifyRegs fun _ => rfl
  | aluImm _ _ => exact .modifyRegs fun _ => rfl
  | inc p | dec p => exact .discard (keeps_modifyPlace p _)
  | scf | ccf => exact .bind .cpu fun _ => .modifyRegs fun _ => rfl
  | bits op p copy => exact keeps_bits op p copy
  | rrd | rld => exact keeps_rotateDigits _ _
  | inA _ | outA _ | outC _ =>
      exact .bind .regs fun _ => .bind (.onBus _) fun _ => .modifyRegs fun _ => rfl
  | inC dst =>
      refine .bind .regs fun _ => .bind (.onBus _) fun _ => .modifyRegs fun r => ?_
      cases dst with
      | some dst => exact rest_setReg8 _ dst _
      | none => rfl
  | nop | undefined => exact .pure _

/-- An instruction that goes on behind its own bytes writes only the registers
that it computes with. -/
theorem keeps_straight {i : Instr} (h : i.isSystem = false) (hbranches : i.branches = false) :
    Keeps rest (execute i : Exec σ δ Bool) := by
  cases i with
  | jrIf _ _ | djnz _ | callIf _ _ | retIf _ | block _ _ _ => cases hbranches
  | _ => exact .bind (keeps_plain h hbranches) fun _ => .pure _

/-- Other ordinary instructions write the program counter as well. -/
theorem keeps_ordinary {i : Instr} (h : i.isSystem = false) :
    Keeps beside (execute i : Exec σ δ Bool) := by
  cases i with
  | jrIf cc d => exact .branchIf cc (keeps_jumpRelative d)
  | djnz d =>
      exact .bind .regs fun _ => .bind (.modifyRegs fun _ => rfl) fun _ =>
        .ite (.bind (keeps_jumpRelative d) fun _ => .pure _) (.pure _)
  | callIf cc addr =>
      exact .bind (.modifyRegs fun _ => rfl) fun _ => .branchIf cc (keeps_callTo addr)
  | retIf cc => exact .branchIf cc keeps_ret
  | block kind dir repeats => exact keeps_block kind dir repeats
  | jp _ | jpIf _ _ | jpPointer _ => exact .bind (.modifyRegs fun _ => rfl) fun _ => .pure _
  | jr d => exact .bind (keeps_jumpRelative d) fun _ => .pure _
  | call _ | rst _ =>
      exact .bind (.bind (.modifyRegs fun _ => rfl) fun _ => keeps_callTo _) fun _ => .pure _
  | ret => exact .bind keeps_ret fun _ => .pure _
  | retn | reti | halt => cases h
  | _ => exact (keeps_straight h rfl).beside

/-- An ordinary instruction writes only the registers that it computes with and
the counters of the instruction stream. -/
theorem keeps_execute {i : Instr} (h : i.isSystem = false) :
    Keeps system (execute i : Exec σ δ Bool) :=
  (keeps_ordinary h).mono Registers.system_of_beside

end

end Exec
end Z80
