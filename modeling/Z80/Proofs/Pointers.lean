import Z80.Proofs.Latches

/-!
The registers that instructions use as a memory pointer. An instruction leaves
HL or an index register alone unless it names the register, one of its halves, or is
one of the few that have HL built in.
-/
namespace Z80

variable {σ δ : Type}

namespace Reg8

def isHalf (p : Pointer) (r : Reg8) : Bool :=
  r == p.high || r == p.low

end Reg8

def Place.isHalf (p : Pointer) : Place → Bool
  | .reg r => r.isHalf p
  | .mem _ => false

/-- The instruction may write the pointer. -/
def Instr.sets (p : Pointer) : Instr → Bool
  | .ld dst _ | .ldImm dst _ | .load dst _ => dst.isHalf p
  | .inc q | .dec q => q.isHalf p
  | .bits _ q copy => q.isHalf p || copy.any (Reg8.isHalf p)
  | .inC dst => dst.any (Reg8.isHalf p)
  | .ldImm16 dst _ | .load16 dst _ | .pop dst | .inc16 dst | .dec16 dst => dst == p.pair
  | .loadPointer q _ | .exSP q | .add16 q _ => q == p
  | .exDEHL | .exx | .adc16 _ | .sbc16 _ | .block .. => p == .hl
  | _ => false

namespace Registers

variable {p q : Pointer} {r s : Registers}

theorem pointer_congr (hhl : r.hl = s.hl) (hix : r.ix = s.ix) (hiy : r.iy = s.iy) :
    r.pointer p = s.pointer p := by
  cases p
  · exact hhl
  · exact hix
  · exact hiy

theorem pointer_setReg8 {dst : Reg8} (h : dst.isHalf p = false) (v : Byte) (r : Registers) :
    (r.setReg8 dst v).pointer p = r.pointer p := by
  cases dst <;> cases p <;> first | rfl | cases h

theorem pointer_setReg16 {dst : Reg16} (h : (dst == p.pair) = false) (w : Word)
    (r : Registers) : (r.setReg16 dst w).pointer p = r.pointer p := by
  cases dst <;> cases p <;> first | rfl | cases h

theorem pointer_setPointer (h : (q == p) = false) (w : Word) (r : Registers) :
    (r.setPointer q w).pointer p = r.pointer p := by
  cases q <;> cases p <;> first | rfl | cases h

theorem pointer_latchCell (m : Cell) (r : Registers) : (r.latchCell m).pointer p = r.pointer p := by
  cases m <;> exact pointer_congr rfl rfl rfl

end Registers

namespace Exec

open Registers (pointer_congr pointer_setReg8 pointer_setReg16 pointer_setPointer
  pointer_latchCell)

/-- The action leaves a pointer alone. -/
abbrev KeepsPointer {α : Type} (p : Pointer) (act : Exec σ δ α) : Prop :=
  Keeps (fun r => r.pointer p) act

namespace KeepsPointer

variable {p : Pointer}

theorem address (m : Cell) : KeepsPointer p (address m : Exec σ δ Word) :=
  .bind .regs fun _ => .bind (.modifyRegs fun r => pointer_latchCell m r) fun _ => .pure _

theorem indirect (m : Indirect) : KeepsPointer p (indirect m : Exec σ δ Word) := by
  cases m <;> exact .bind .regs fun _ => .pure _

theorem jump (w : Word) : KeepsPointer p (jump w : Exec σ δ Unit) :=
  .modifyRegs fun _ => pointer_congr rfl rfl rfl

theorem jumpRelative (d : Byte) : KeepsPointer p (jumpRelative d : Exec σ δ Unit) :=
  .bind .regs fun _ => jump _

theorem store {copy : Option Reg8} (h : copy.any (Reg8.isHalf p) = false) (v : Byte) :
    KeepsPointer p (bits.store copy v : Exec σ δ Unit) := by
  cases copy with
  | some dst => exact .modifyRegs fun r => pointer_setReg8 h v r
  | none => exact .pure _

theorem endRound (again : Bool) (last next : Flags) :
    KeepsPointer p (endRound again last next : Exec σ δ Bool) := by
  cases again <;> exact .bind (.modifyRegs fun _ => pointer_congr rfl rfl rfl) fun _ => .pure _

variable [Bus σ]

theorem push (w : Word) : KeepsPointer p (push w : Exec σ δ Unit) :=
  .bind .regs fun _ => .bind (.onBus _) fun _ => .bind (.onBus _) fun _ =>
    .modifyRegs fun _ => pointer_congr rfl rfl rfl

theorem pop : KeepsPointer p (pop : Exec σ δ Word) :=
  .bind .regs fun _ => .bind (.read16 _) fun _ =>
    .bind (.modifyRegs fun _ => pointer_congr rfl rfl rfl) fun _ => .pure _

theorem readPlace (q : Place) : KeepsPointer p (readPlace q : Exec σ δ Byte) := by
  cases q with
  | reg _ => exact .bind .regs fun _ => .pure _
  | mem m => exact .bind (address m) fun _ => .onBus _

theorem modifyPlace {q : Place} (h : q.isHalf p = false) (op : Byte → Flags → Result 8) :
    KeepsPointer p (modifyPlace q op : Exec σ δ Byte) := by
  cases q with
  | reg dst =>
      refine .bind .regs fun s => .bind (.modifyRegs fun r => ?_) fun _ => .pure _
      refine Eq.trans ?_ (pointer_setReg8 h (op (s.reg8 dst) s.f).value r)
      exact pointer_congr rfl rfl rfl
  | mem m =>
      exact .bind (address m) fun _ => .bind (.onBus _) fun _ => .bind .regs fun _ =>
        .bind (.onBus _) fun _ => .bind (.modifyRegs fun _ => pointer_congr rfl rfl rfl) fun _ =>
          .pure _

theorem callTo (addr : Word) : KeepsPointer p (callTo addr : Exec σ δ Unit) :=
  .bind .regs fun _ => .bind (push _) fun _ => .modifyRegs fun _ => pointer_congr rfl rfl rfl

theorem ret : KeepsPointer p (ret : Exec σ δ Unit) :=
  .bind pop fun _ => jump _

theorem bits {q : Place} {copy : Option Reg8} (hq : q.isHalf p = false)
    (hcopy : copy.any (Reg8.isHalf p) = false) (op : BitOp) :
    KeepsPointer p (bits op q copy : Exec σ δ Unit) := by
  cases op with
  | bit _ =>
      exact .bind (readPlace q) fun _ => .bind .regs fun _ =>
        .modifyRegs fun _ => pointer_congr rfl rfl rfl
  | rotate _ | res _ | set _ => exact .bind (modifyPlace hq _) fun _ => store hcopy _

theorem rotateDigits (ra rm : (a m : Byte) → Byte) :
    KeepsPointer p (rotateDigits ra rm : Exec σ δ Unit) :=
  .bind .regs fun _ => .bind (.onBus _) fun _ => .bind (.onBus _) fun _ =>
    .modifyRegs fun _ => pointer_congr rfl rfl rfl

/-- Block instructions have HL built in, and leave the index registers alone. -/
theorem block (h : (p == .hl) = false) (kind : BlockKind) (dir : Direction) (repeats : Bool) :
    KeepsPointer p (block kind dir repeats : Exec σ δ Bool) := by
  cases p with
  | hl => cases h
  | ix | iy =>
      cases kind with
      | copy | input | output =>
          exact .bind .regs fun _ => .bind (.onBus _) fun _ => .bind (.onBus _) fun _ =>
            .bind (.modifyRegs fun _ => rfl) fun _ => endRound _ _ _
      | search =>
          exact .bind .regs fun _ => .bind (.onBus _) fun _ =>
            .bind (.modifyRegs fun _ => rfl) fun _ => endRound _ _ _

variable [Peripheral δ]

theorem plain {i : Instr} (h : i.sets p = false) : KeepsPointer p (plain i : Exec σ δ Unit) := by
  cases i with
  | ld dst _ | ldImm dst _ => exact .modifyRegs fun r => pointer_setReg8 h _ r
  | load dst m =>
      exact .bind (address m) fun _ => .bind (.onBus _) fun _ =>
        .modifyRegs fun r => pointer_setReg8 h _ r
  | ldImm16 dst _ | inc16 dst | dec16 dst => exact .modifyRegs fun r => pointer_setReg16 h _ r
  | load16 dst _ =>
      exact .bind (.read16 _) fun _ => .modifyRegs fun r =>
        (pointer_congr rfl rfl rfl).trans (pointer_setReg16 h _ r)
  | pop dst => exact .bind pop fun _ => .modifyRegs fun r => pointer_setReg16 h _ r
  | loadPointer q _ =>
      exact .bind (.read16 _) fun _ => .modifyRegs fun r =>
        (pointer_congr rfl rfl rfl).trans (pointer_setPointer h _ r)
  | exSP q =>
      exact .bind .regs fun _ => .bind (.read16 _) fun _ => .bind (keeps_write16 _ _) fun _ =>
        .modifyRegs fun r => (pointer_congr rfl rfl rfl).trans (pointer_setPointer h _ r)
  | add16 q src =>
      refine .modifyRegs fun r => Eq.trans ?_
        (pointer_setPointer h (Alu.add16 (r.pointer q) (r.reg16 src) r.f).value r)
      exact pointer_congr rfl rfl rfl
  | exDEHL | exx | adc16 _ | sbc16 _ =>
      cases p with
      | hl => cases h
      | ix | iy => exact .modifyRegs fun _ => rfl
  | inc q | dec q => exact .discard (modifyPlace h _)
  | bits op q copy =>
      obtain ⟨hq, hcopy⟩ := Bool.or_eq_false_iff.mp h
      exact bits hq hcopy op
  | inC dst =>
      refine .bind .regs fun _ => .bind (.onBus _) fun _ => .modifyRegs fun r => ?_
      cases dst with
      | some dst => exact (pointer_setReg8 h _ _).trans (pointer_congr rfl rfl rfl)
      | none => exact pointer_congr rfl rfl rfl
  | ldSystem dst =>
      cases dst <;> exact .modifyRegs fun _ => pointer_congr rfl rfl rfl
  | ldFromSystem _ | ldSP _ | exAF | daa | cpl | neg | rotateA _ | aluImm _ _ | jp _ | jpIf _ _
  | jpPointer _ | halt | di | ei | im _ =>
      exact .modifyRegs fun _ => pointer_congr rfl rfl rfl
  | store m _ => exact .bind (address m) fun _ => .bind .regs fun _ => .onBus _
  | storeImm m _ => exact .bind (address m) fun _ => .onBus _
  | loadA src =>
      exact .bind (indirect src) fun _ => .bind (.onBus _) fun _ =>
        .modifyRegs fun _ => pointer_congr rfl rfl rfl
  | storeA dst =>
      exact .bind (indirect dst) fun _ => .bind .regs fun _ => .bind (.onBus _) fun _ =>
        .modifyRegs fun _ => pointer_congr rfl rfl rfl
  | storePointer _ _ | store16 _ _ =>
      exact .bind .regs fun _ => .bind (keeps_write16 _ _) fun _ =>
        .modifyRegs fun _ => pointer_congr rfl rfl rfl
  | push _ => exact .bind .regs fun _ => push _
  | alu _ src =>
      exact .bind (readPlace src) fun _ => .modifyRegs fun _ => pointer_congr rfl rfl rfl
  | scf | ccf => exact .bind .cpu fun _ => .modifyRegs fun _ => pointer_congr rfl rfl rfl
  | rrd | rld => exact rotateDigits _ _
  | jr d => exact jumpRelative d
  | call _ | rst _ =>
      exact .bind (.modifyRegs fun _ => pointer_congr rfl rfl rfl) fun _ => callTo _
  | ret => exact ret
  | retn => exact .bind ret fun _ => .modifyRegs fun _ => pointer_congr rfl rfl rfl
  | reti =>
      exact .bind ret fun _ => .bind (.modifyRegs fun _ => pointer_congr rfl rfl rfl) fun _ _ => rfl
  | inA _ | outA _ | outC _ =>
      exact .bind .regs fun _ => .bind (.onBus _) fun _ =>
        .modifyRegs fun _ => pointer_congr rfl rfl rfl
  | nop | undefined | jrIf _ _ | djnz _ | callIf _ _ | retIf _ | block _ _ _ => exact .pure _

/-- An instruction leaves alone every pointer that it does not set. -/
theorem execute {i : Instr} (h : i.sets p = false) : KeepsPointer p (execute i : Exec σ δ Bool) := by
  cases i with
  | jrIf cc d => exact .branchIf cc (jumpRelative d)
  | djnz d =>
      exact .bind .regs fun _ => .bind (.modifyRegs fun _ => pointer_congr rfl rfl rfl) fun _ =>
        .ite (.bind (jumpRelative d) fun _ => .pure _) (.pure _)
  | callIf cc addr =>
      exact .bind (.modifyRegs fun _ => pointer_congr rfl rfl rfl) fun _ =>
        .branchIf cc (callTo addr)
  | retIf cc => exact .branchIf cc ret
  | block kind dir repeats => exact block h kind dir repeats
  | _ => exact .bind (plain h) fun _ => .pure _

end KeepsPointer

end Exec
end Z80
