import Z80.Proofs.Pages

/-!
The opcodes of an instruction. They tell all of it but its operand bytes. Every
instruction stands on one page only, so the page and an index prefix tell how many of
its bytes are opcodes. Behind an index prefix a code of the bit page is an operand.
-/
namespace Z80

inductive Page
  | main
  | bits
  | extended
deriving DecidableEq

/-- The page that an instruction has its code on. -/
def Instr.page : Instr → Page
  | .bits .. => .bits
  | .undefined | .ldSystem _ | .ldFromSystem _ | .load16 .. | .store16 .. | .adc16 _ | .sbc16 _
  | .neg | .rrd | .rld | .retn | .reti | .im _ | .inC _ | .outC _ | .block .. => .extended
  | _ => .main

/-- How many bytes of an operation are opcodes. -/
def Operation.opcodes (op : Operation) : Nat :=
  match op.instr.page with
  | .main => if op.indexed then 2 else 1
  | .bits => 2
  | .extended => if op.indexed then 3 else 2

def Cell.blank : Cell → Cell
  | .hl => .hl
  | .ix _ => .ix 0
  | .iy _ => .iy 0

def Place.blank : Place → Place
  | .reg r => .reg r
  | .mem m => .mem m.blank

theorem Cell.blank_blank (m : Cell) : m.blank.blank = m.blank := by
  cases m <;> rfl

theorem Place.blank_blank (p : Place) : p.blank.blank = p.blank := by
  cases p with
  | reg _ => rfl
  | mem m => exact congrArg Place.mem m.blank_blank

def Indirect.blank : Indirect → Indirect
  | .absolute _ => .absolute 0
  | m => m

namespace Instr

/-- The instruction with zeros for the values that its operand bytes give. -/
def blank : Instr → Instr
  | .ldImm dst _ => .ldImm dst 0
  | .load dst m => .load dst m.blank
  | .store m src => .store m.blank src
  | .storeImm m _ => .storeImm m.blank 0
  | .loadA m => .loadA m.blank
  | .storeA m => .storeA m.blank
  | .ldImm16 dst _ => .ldImm16 dst 0
  | .loadPointer p _ => .loadPointer p 0
  | .storePointer _ p => .storePointer 0 p
  | .load16 dst _ => .load16 dst 0
  | .store16 _ src => .store16 0 src
  | .alu op p => .alu op p.blank
  | .aluImm op _ => .aluImm op 0
  | .inc p => .inc p.blank
  | .dec p => .dec p.blank
  | .bits op p copy => .bits op p.blank copy
  | .jp _ => .jp 0
  | .jpIf cc _ => .jpIf cc 0
  | .jr _ => .jr 0
  | .jrIf cc _ => .jrIf cc 0
  | .djnz _ => .djnz 0
  | .call _ => .call 0
  | .callIf cc _ => .callIf cc 0
  | .inA _ => .inA 0
  | .outA _ => .outA 0
  | i => i

theorem page_blank (i : Instr) : i.blank.page = i.page := by
  cases i <;> rfl

/-- Nothing of the instruction stands in operand bytes. -/
def IsBare (i : Instr) : Prop :=
  ∀ j : Instr, j.blank = i.blank → j = i

theorem isBare_ldSystem (dst : SystemReg) : (ldSystem dst).IsBare := by
  intro j h
  cases j <;> first | exact h | cases h

theorem isBare_reti : reti.IsBare := by
  intro j h
  cases j <;> first | exact h | cases h

end Instr

/-- The instruction of a code of the main page, with zeros in its operand bytes. -/
def Opcode.sample? : Opcode → Option Instr
  | .instr form => some form.sample
  | _ => none

namespace Form

variable (first second : Byte)

theorem blank_ofCell (p : Pointer) (make : Cell → Instr)
    (h : ∀ m, (make m).blank = (make m.blank).blank) :
    ((ofCell p make).fill first second).blank = (ofCell p make).sample.blank := by
  cases p with
  | hl => rfl
  | ix => exact h (.ix first)
  | iy => exact h (.iy first)

theorem blank_ofCellImm (p : Pointer) (make : Cell → Byte → Instr)
    (h : ∀ m n, (make m n).blank = (make m.blank 0).blank) :
    ((ofCellImm p make).fill first second).blank = (ofCellImm p make).sample.blank := by
  cases p with
  | hl => exact h .hl first
  | ix => exact h (.ix _) _
  | iy => exact h (.iy _) _

theorem blank_onPlace (p : Pointer) (code : Nat) (make : Place → Instr)
    (h : ∀ q, (make q).blank = (make q.blank).blank) :
    ((Opcode.onPlace p code make).fill first second).blank =
      (Opcode.onPlace p code make).sample.blank := by
  simp only [Opcode.onPlace]
  split
  · rfl
  · exact blank_ofCell first second p _ fun m => h (.mem m)

theorem blank_lowQuarter (p : Pointer) (op : Byte) :
    ((Opcode.lowQuarter p op).fill first second).blank =
      (Opcode.lowQuarter p op).sample.blank := by
  simp only [Opcode.lowQuarter]
  split
  · split <;> rfl
  · split <;> rfl
  · split <;> rfl
  · split <;> rfl
  · exact blank_onPlace first second p _ _ fun q => congrArg Instr.inc q.blank_blank.symm
  · exact blank_onPlace first second p _ _ fun q => congrArg Instr.dec q.blank_blank.symm
  · split
    · rfl
    · exact blank_ofCellImm first second p _ fun m _ =>
        congrArg (Instr.storeImm · 0) m.blank_blank.symm
  · split <;> rfl

theorem blank_loads (p : Pointer) (op : Byte) :
    ((Opcode.loads p op).fill first second).blank = (Opcode.loads p op).sample.blank := by
  simp only [Opcode.loads]
  split
  · rfl
  · exact blank_ofCell first second p _ fun m =>
      congrArg (Instr.load _) m.blank_blank.symm
  · exact blank_ofCell first second p _ fun m =>
      congrArg (Instr.store · _) m.blank_blank.symm
  · rfl

theorem blank_highQuarter {p : Pointer} {op : Byte} {form : Form}
    (h : Opcode.highQuarter p op = .instr form) :
    (form.fill first second).blank = form.sample.blank := by
  simp only [Opcode.highQuarter] at h
  repeat' split at h
  all_goals cases h
  all_goals rfl

/-- The operand bytes behind a code of the main page only fill in values. -/
theorem blank_decode {p : Pointer} {op : Byte} {form : Form}
    (h : Opcode.decode p op = .instr form) :
    (form.fill first second).blank = form.sample.blank := by
  simp only [Opcode.decode] at h
  split at h
  · cases h
    exact blank_lowQuarter first second p op
  · cases h
    exact blank_loads first second p op
  · cases h
    exact blank_onPlace first second p _ _ fun q => congrArg (Instr.alu _) q.blank_blank.symm
  · exact blank_highQuarter first second h

theorem blank_ofExtended (op : Byte) :
    ((ofExtended op).fill first second).blank = (ofExtended op).sample.blank := by
  simp only [ofExtended, extendedCore, extendedBlock]
  repeat' split
  all_goals rfl

theorem page_sample_decode (p : Pointer) (op : Byte) :
    ∀ i ∈ (Opcode.decode p op).sample?, i.page = .main := by
  revert op
  cases p <;> decide +kernel

theorem page_decode {p : Pointer} {op : Byte} {form : Form}
    (h : Opcode.decode p op = .instr form) : (form.fill first second).page = .main := by
  rw [← Instr.page_blank, blank_decode first second h, Instr.page_blank]
  exact page_sample_decode p op _ (congrArg Opcode.sample? h)

theorem page_ofExtended (op : Byte) : ((ofExtended op).fill first second).page = .extended := by
  rw [← Instr.page_blank, blank_ofExtended, Instr.page_blank]
  revert op
  decide +kernel

/-- Operand bytes have no part in an instruction that has none. -/
theorem fill_ofExtended_eq_iff {i : Instr} (h : i.IsBare) (op : Byte) :
    (ofExtended op).fill first second = i ↔ (ofExtended op).sample = i := by
  constructor
  · rintro rfl
    exact h _ (blank_ofExtended first second op).symm
  · rintro rfl
    exact h _ (blank_ofExtended first second op)

/-- Only one code of the extended page loads the refresh counter. -/
theorem sample_ofExtended_eq_ldSystem_iff (op : Byte) :
    (ofExtended op).sample = .ldSystem .r ↔ op = 0x4F := by
  revert op
  decide +kernel

/-- Only one code of the extended page returns from an interrupt with word to the
chain. -/
theorem sample_ofExtended_eq_reti_iff (op : Byte) :
    (ofExtended op).sample = .reti ↔ op = 0x4D := by
  revert op
  decide +kernel

end Form

theorem Instr.page_ofBits (op : Byte) : (ofBits op).page = .bits := by
  simp only [ofBits]
  split <;> rfl

end Z80
