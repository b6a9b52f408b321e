import Z80.Proofs.Stream

/-!
The pages of a static stream behind the main one. An index prefix puts an
index register into the place of HL for the code behind it; the codes on the
cell of HL then have a displacement as well, and every other code keeps the
operand bytes it has. Codes of the bit page and of the extended page are
opcodes too, but behind an index prefix a code of the bit page is an operand.
-/
namespace Z80

theorem Word.add_one_one (w : Word) : w + 1 + 1 = w + 2 :=
  BitVec.add_assoc ..

theorem Word.add_two_one (w : Word) : w + 2 + 1 = w + 3 :=
  BitVec.add_assoc ..

theorem Word.add_ofNat_succ (w : Word) (n : Nat) :
    w + BitVec.ofNat 16 (n + 1) = w + BitVec.ofNat 16 n + 1 := by
  rw [BitVec.ofNat_add, BitVec.add_assoc]
  rfl

theorem Word.add_one_ofNat (w : Word) (n : Nat) :
    w + 1 + BitVec.ofNat 16 n = w + BitVec.ofNat 16 (n + 1) := by
  rw [Word.add_ofNat_succ]
  grind

/-- The memory holds bytes from an address on. -/
def Holds (memory : Word → Byte) (addr : Word) : List Byte → Prop
  | [] => True
  | v :: rest => memory addr = v ∧ Holds memory (addr + 1) rest

instance (memory : Word → Byte) : (addr : Word) → (bytes : List Byte) →
    Decidable (Holds memory addr bytes)
  | _, [] => inferInstanceAs (Decidable True)
  | addr, _ :: rest =>
      have := instDecidableHolds memory (addr + 1) rest
      inferInstanceAs (Decidable (_ ∧ _))

namespace Opcode

/-- The two prefixes, and what they put into the place of HL. -/
inductive Indexes : Byte → Pointer → Prop
  | ix : Indexes 0xDD .ix
  | iy : Indexes 0xFD .iy

/-- Codes that change the cell of HL, or the accumulator by that cell. -/
def adjustCodes : List Byte :=
  [0x34, 0x35, 0x86, 0x8E, 0x96, 0x9E, 0xA6, 0xAE, 0xB6, 0xBE]

/-- Codes that load a register from the cell of HL. -/
def loadCodes : List (Byte × Reg8) :=
  [(0x46, .b), (0x4E, .c), (0x56, .d), (0x5E, .e), (0x66, .h), (0x6E, .l), (0x7E, .a)]

/-- Codes that store a register to the cell of HL. -/
def storeCodes : List (Byte × Reg8) :=
  [(0x70, .b), (0x71, .c), (0x72, .d), (0x73, .e), (0x74, .h), (0x75, .l), (0x77, .a)]

/-- The codes of the main page on the cell of HL. -/
def cellCodes : List Byte :=
  adjustCodes ++ 0x36 :: loadCodes.map Prod.fst ++ storeCodes.map Prod.fst

theorem mem_cellCodes (op : Byte) :
    op ∈ cellCodes ↔
      (top op = 0 ∧ middle op = 6 ∧ bottom op ∈ [4, 5, 6]) ∨
      (top op = 1 ∧ ¬(middle op = 6 ↔ bottom op = 6)) ∨ (top op = 2 ∧ bottom op = 6) := by
  revert op
  decide +kernel

theorem Indexes.decode {code : Byte} {p : Pointer} (h : Indexes code p) {q : Pointer} :
    Opcode.decode q code = .index p := by
  cases h <;> rfl

def prefixes : List Byte :=
  [0xDD, 0xFD]

theorem exists_indexes {code : Byte} (h : code ∈ prefixes) : ∃ p, Indexes code p := by
  simp only [prefixes, List.mem_cons, List.not_mem_nil, or_false] at h
  rcases h with rfl | rfl
  · exact ⟨.ix, .ix⟩
  · exact ⟨.iy, .iy⟩

/-- What an opcode puts into the place of HL, if it is a prefix. -/
def index? : Opcode → Option Pointer
  | .index p => some p
  | _ => none

theorem index?_decode (q : Pointer) (code : Byte) :
    (Opcode.decode q code).index? =
      if code = 0xDD then some .ix else if code = 0xFD then some .iy else none := by
  revert code
  cases q <;> decide +kernel

theorem indexes_of_decode {q p : Pointer} {code : Byte} (h : Opcode.decode q code = .index p) :
    Indexes code p := by
  have hindex := index?_decode q code
  rw [h] at hindex
  split at hindex
  · cases hindex
    subst code
    exact .ix
  · split at hindex
    · cases hindex
      subst code
      exact .iy
    · cases hindex

/-- The code that goes on to another page, if an opcode does. -/
def pageCode? : Opcode → Option Byte
  | .bits => some 0xCB
  | .extended => some 0xED
  | _ => none

theorem pageCode?_decode (q : Pointer) (code : Byte) :
    (Opcode.decode q code).pageCode? = none ∨ (Opcode.decode q code).pageCode? = some code := by
  revert code
  cases q <;> decide +kernel

theorem eq_of_pageCode? {q : Pointer} {code v : Byte}
    (h : (Opcode.decode q code).pageCode? = some v) : code = v := by
  rcases pageCode?_decode q code with hnone | hsome
  · rw [hnone] at h
    cases h
  · exact Option.some_inj.mp (hsome.symm.trans h)

theorem Indexes.mem_prefixes {code : Byte} {p : Pointer} (h : Indexes code p) :
    code ∈ prefixes := by
  cases h <;> decide

end Opcode

namespace Registers

@[simp] theorem passed_pc (r : Registers) : (passed r).pc = r.pc + 1 := rfl

@[simp] theorem skipped_pc (n : Nat) (r : Registers) :
    (skipped n r).pc = r.pc + BitVec.ofNat 16 n := rfl

theorem skipped_skipped (n k : Nat) (r : Registers) :
    skipped k (skipped n r) = skipped (n + k) r := by
  simp only [skipped, BitVec.add_assoc, BitVec.ofNat_add]

end Registers

namespace Exec

open Registers (skipped passed passed_pc skipped_pc)

variable {σ δ : Type} [Bus σ] {data opcodes operands : σ → Word → Byte}
variable (h : Bus.Static data opcodes operands) {m : Machine σ δ} {p : Pointer}
include h

/-- A code of the main page behind an index prefix. -/
theorem fetch_indexed (hindexes : Opcode.Indexes (opcodes m.bus m.cpu.regs.pc) p) {form : Form}
    (hop : Opcode.decode p (opcodes m.bus (m.cpu.regs.pc + 1)) = .instr form) :
    fetch m =
      (⟨true, form.fill (operands m.bus (m.cpu.regs.pc + 2)) (operands m.bus (m.cpu.regs.pc + 3))⟩,
        m.onRegs (skipped form.length ∘ passed ∘ passed)) := by
  simp only [fetch, bind_apply, fetchOpcode_static h, hindexes.decode, fetchIndexed,
    peekOpcode_static h, Machine.onRegs_regs, Machine.onRegs_bus, passed_pc, hop,
    passOpcode_apply, fetchForm_static h, pure_apply, Machine.onRegs_onRegs, Function.comp_apply,
    Word.add_one_one, Word.add_two_one]

/-- A code of the bit page behind an index prefix. -/
theorem fetch_indexedBits (hindexes : Opcode.Indexes (opcodes m.bus m.cpu.regs.pc) p)
    (hop : opcodes m.bus (m.cpu.regs.pc + 1) = 0xCB) :
    fetch m =
      (⟨true, Instr.ofIndexedBits p (operands m.bus (m.cpu.regs.pc + 2))
        (operands m.bus (m.cpu.regs.pc + 3))⟩, m.onRegs (skipped 2 ∘ passed ∘ passed)) := by
  have hfourth : m.cpu.regs.pc + 2 + BitVec.ofNat 16 1 = m.cpu.regs.pc + 3 := Word.add_two_one _
  have hbits : Opcode.decode p 0xCB = .bits := rfl
  have hskipped : skipped 1 ∘ skipped 1 ∘ passed ∘ passed = skipped 2 ∘ passed ∘ passed := by
    funext r
    exact Registers.skipped_skipped 1 1 _
  simp only [fetch, bind_apply, fetchOpcode_static h, hindexes.decode, fetchIndexed,
    peekOpcode_static h, Machine.onRegs_regs, Machine.onRegs_bus, passed_pc, hop, hbits,
    passOpcode_apply, fetchOperand_static h, skipped_pc, pure_apply, Machine.onRegs_onRegs,
    Function.comp_apply, Word.add_one_one, hfourth, hskipped]

theorem fetch_bits (hop : opcodes m.bus m.cpu.regs.pc = 0xCB) :
    fetch m = (⟨false, Instr.ofBits (opcodes m.bus (m.cpu.regs.pc + 1))⟩,
      m.onRegs (passed ∘ passed)) := by
  have hbits : Opcode.decode .hl 0xCB = .bits := rfl
  simp only [fetch, bind_apply, fetchOpcode_static h, hop, hbits, Machine.onRegs_regs,
    Machine.onRegs_bus, passed_pc, pure_apply, Machine.onRegs_onRegs]

theorem fetch_extended (hop : opcodes m.bus m.cpu.regs.pc = 0xED) {i : Instr}
    (hi : Form.ofExtended (opcodes m.bus (m.cpu.regs.pc + 1)) = .fixed i) :
    fetch m = (⟨false, i⟩, m.onRegs (passed ∘ passed)) := by
  have hextended : Opcode.decode .hl 0xED = .extended := rfl
  simp only [fetch, bind_apply, fetchOpcode_static h, hop, hextended, Machine.onRegs_regs,
    Machine.onRegs_bus, passed_pc, hi, fetchForm, pure_apply, Machine.onRegs_onRegs]

end Exec
end Z80
