import Z80.Bus.Static
import Z80.Proofs.Relabel

/-!
The instruction stream on a static bus. Fetching reads the bytes at the
program counter one after the other, and a step on a main page code executes
the instruction that its bytes spell.
-/
namespace Z80

def Form.length : Form → Nat
  | .fixed _ => 0
  | .byte _ => 1
  | .word _ => 2

/-- The instruction with its operand bytes. -/
def Form.fill (first second : Byte) : Form → Instr
  | .fixed i => i
  | .byte make => make first
  | .word make => make (Word.ofBytes second first)

/-- The accelerator looks for a loop after this instruction. -/
def Instr.closesLoop (i : Instr) : Bool :=
  i.isJump || (Counter.ofInstr? i).isSome

def Instr.operandBytes : Instr → Nat
  | .djnz _ | .jr _ | .jrIf .. | .ldImm .. | .storeImm .. | .aluImm .. | .inA _ | .outA _ => 1
  | .ldImm16 .. | .loadPointer .. | .storePointer .. | .loadA (.absolute _)
  | .storeA (.absolute _) | .jp _ | .jpIf .. | .call _ | .callIf .. => 2
  | _ => 0

namespace Form

theorem closesLoop_ofCell (p : Pointer) (make : Cell → Instr)
    (h : ∀ m, (make m).closesLoop = false) (first second : Byte) :
    ((ofCell p make).fill first second).closesLoop = false := by
  cases p <;> exact h _

theorem closesLoop_ofCellImm (p : Pointer) (make : Cell → Byte → Instr)
    (h : ∀ m n, (make m n).closesLoop = false) (first second : Byte) :
    ((ofCellImm p make).fill first second).closesLoop = false := by
  cases p <;> exact h _ _

theorem closesLoop_onPlace (p : Pointer) (code : Nat) (make : Place → Instr)
    (h : ∀ q, (make q).closesLoop = false) (first second : Byte) :
    ((Opcode.onPlace p code make).fill first second).closesLoop = false := by
  simp only [Opcode.onPlace]
  split
  · exact h _
  · exact closesLoop_ofCell p _ (fun m => h (.mem m)) first second

/-- Of the codes that name a register pair, only those of BC, DE and HL itself
close a loop. -/
theorem dec16_ofCode_shared {p : Pointer} {n : Nat}
    (h : (Instr.dec16 (Reg16.ofCode p n)).closesLoop) : Reg16.ofCode .hl n = Reg16.ofCode p n := by
  match n with
  | 0 | 1 | 2 => cases p <;> first | rfl | cases h
  | _ + 3 => rfl

end Form

namespace Opcode

theorem lowQuarter_shared {p : Pointer} {op first second : Byte}
    (h : ((lowQuarter p op).fill first second).closesLoop) :
    lowQuarter .hl op = lowQuarter p op := by
  simp only [lowQuarter] at h ⊢
  match hb : bottom op with
  | 0 => rfl
  | 1 =>
      simp only [hb] at h ⊢
      split at h <;> cases h
  | 2 =>
      simp only [hb] at h ⊢
      split at h <;> first | rfl | cases h
  | 3 =>
      simp only [hb] at h ⊢
      split at h
      · rename_i odd
        simp only [odd]
        exact congrArg (fun r => Form.fixed (.dec16 r)) (Form.dec16_ofCode_shared h)
      · cases h
  | 4 | 5 =>
      simp only [hb] at h ⊢
      rw [Form.closesLoop_onPlace p _ _ (fun _ => rfl)] at h
      cases h
  | 6 =>
      simp only [hb] at h ⊢
      split at h
      · cases h
      · rw [Form.closesLoop_ofCellImm p _ (fun _ _ => rfl)] at h
        cases h
  | n + 7 => rfl

theorem loads_closesLoop (p : Pointer) (op first second : Byte) :
    ((loads p op).fill first second).closesLoop = false := by
  simp only [loads]
  split
  · rfl
  · exact Form.closesLoop_ofCell p _ (fun _ => rfl) first second
  · exact Form.closesLoop_ofCell p _ (fun _ => rfl) first second
  · rfl

theorem highQuarter_shared {p : Pointer} {op first second : Byte} {form : Form}
    (h : highQuarter p op = .instr form) (hc : (form.fill first second).closesLoop) :
    highQuarter .hl op = .instr form := by
  simp only [highQuarter] at h ⊢
  repeat' split at h
  all_goals cases h
  all_goals first | rfl | cases hc

/-- A code that closes a loop means the same behind an index prefix. -/
theorem decode_shared {p : Pointer} {op first second : Byte} {form : Form}
    (h : decode p op = .instr form) (hc : (form.fill first second).closesLoop) :
    decode .hl op = .instr form := by
  simp only [decode] at h ⊢
  match ht : top op with
  | 0 =>
      simp only [ht, instr.injEq] at h ⊢
      subst h
      exact lowQuarter_shared hc
  | 1 =>
      simp only [ht, instr.injEq] at h
      subst h
      rw [loads_closesLoop] at hc
      cases hc
  | 2 =>
      simp only [ht, instr.injEq] at h
      subst h
      rw [Form.closesLoop_onPlace p _ _ (fun _ => rfl)] at hc
      cases hc
  | n + 3 =>
      simp only [ht] at h ⊢
      exact highQuarter_shared h hc

theorem length_lowQuarter (op first second : Byte) :
    ((lowQuarter .hl op).fill first second).operandBytes = (lowQuarter .hl op).length := by
  simp only [lowQuarter, onPlace]
  repeat' split
  all_goals rfl

theorem length_loads (op first second : Byte) :
    ((loads .hl op).fill first second).operandBytes = (loads .hl op).length := by
  simp only [loads]
  split <;> rfl

theorem length_highQuarter {op first second : Byte} {form : Form}
    (h : highQuarter .hl op = .instr form) :
    (form.fill first second).operandBytes = form.length := by
  simp only [highQuarter] at h
  repeat' split at h
  all_goals cases h
  all_goals rfl

theorem length_decode {op first second : Byte} {form : Form} (h : decode .hl op = .instr form) :
    (form.fill first second).operandBytes = form.length := by
  simp only [decode] at h
  split at h
  · cases h
    exact length_lowQuarter op first second
  · cases h
    exact length_loads op first second
  · cases h
    simp only [onPlace]
    split <;> rfl
  · exact length_highQuarter h

end Opcode

theorem Form.closesLoop_ofExtended (op first second : Byte) :
    ((ofExtended op).fill first second).closesLoop = false := by
  simp only [ofExtended, extendedCore, extendedBlock]
  repeat' split
  all_goals rfl

theorem Instr.closesLoop_ofBits (op : Byte) : (ofBits op).closesLoop = false := by
  simp only [ofBits]
  split <;> rfl

namespace Registers

def passed (r : Registers) : Registers :=
  { refresh 1 r with pc := r.pc + 1 }

def skipped (n : Nat) (r : Registers) : Registers :=
  { r with pc := r.pc + BitVec.ofNat 16 n }

def fetched (n : Nat) : Registers → Registers :=
  skipped n ∘ passed ∘ start

end Registers

namespace Machine

variable {σ δ : Type} (g k : Registers → Registers) (m : Machine σ δ)

@[simp] theorem onRegs_bus : (m.onRegs g).bus = m.bus := rfl

@[simp] theorem onRegs_regs : (m.onRegs g).cpu.regs = g m.cpu.regs := rfl

@[simp] theorem onRegs_onRegs : (m.onRegs g).onRegs k = m.onRegs (k ∘ g) := rfl

end Machine

namespace Exec

variable {σ δ : Type} [Bus σ] {data opcodes operands : σ → Word → Byte}

omit [Bus σ] in
theorem passOpcode_apply (m : Machine σ δ) :
    (passOpcode m : Unit × Machine σ δ) = ((), m.onRegs Registers.passed) := rfl

/-- The bytes from an address on spell an instruction of the main page with a
number of operand bytes. -/
def Spells (opcodes operands : σ → Word → Byte) (bus : σ) (addr : Word) (i : Instr)
    (length : Nat) : Prop :=
  ∃ form, Opcode.decode .hl (opcodes bus addr) = .instr form ∧ form.length = length ∧
    form.fill (operands bus (addr + 1)) (operands bus (addr + 1 + 1)) = i

omit [Bus σ] in
theorem Spells.length_eq {bus : σ} {addr : Word} {i : Instr} {n : Nat}
    (h : Spells opcodes operands bus addr i n) : n = i.operandBytes := by
  obtain ⟨form, hform, rfl, rfl⟩ := h
  exact (Opcode.length_decode hform).symm

section

variable (h : ∀ a s, Bus.fetchOpcode a s = (opcodes s a, s))
include h

/-! Opcodes that are there and change nothing, whatever else the bus does. -/

theorem peekOpcode_pure (m : Machine σ δ) :
    peekOpcode m = (opcodes m.bus m.cpu.regs.pc, m) := by
  simp only [peekOpcode, bind_apply, regs, onBus, h]

theorem fetchOpcode_pure (m : Machine σ δ) :
    fetchOpcode m = (opcodes m.bus m.cpu.regs.pc, m.onRegs Registers.passed) := by
  simp only [fetchOpcode, bind_apply, pure_apply, peekOpcode_pure h, passOpcode_apply]

end

section

variable (h : Bus.Static data opcodes operands)
include h

theorem read_static (a : Word) (m : Machine σ δ) : read a m = (data m.bus a, m) := by
  simp only [read, onBus, h.read_eq]

theorem read_bind_static {α : Type} (a : Word) (g : Byte → Exec σ δ α) (m : Machine σ δ) :
    (read a >>= g) m = g (data m.bus a) m := by
  rw [bind_apply, read_static h]

theorem read16_static (a : Word) (m : Machine σ δ) :
    read16 a m = (Word.ofBytes (data m.bus (a + 1)) (data m.bus a), m) := by
  simp only [read16, bind_apply, pure_apply, read_static h]

theorem peekOpcode_static (m : Machine σ δ) :
    peekOpcode m = (opcodes m.bus m.cpu.regs.pc, m) :=
  peekOpcode_pure h.fetchOpcode_eq m

theorem fetchOpcode_static (m : Machine σ δ) :
    fetchOpcode m = (opcodes m.bus m.cpu.regs.pc, m.onRegs Registers.passed) :=
  fetchOpcode_pure h.fetchOpcode_eq m

theorem fetchOperand_static (m : Machine σ δ) :
    fetchOperand m = (operands m.bus m.cpu.regs.pc, m.onRegs (Registers.skipped 1)) := by
  simp only [fetchOperand, bind_apply, pure_apply, regs, onBus, h.fetchOperand_eq]
  rfl

theorem fetchForm_static (form : Form) (m : Machine σ δ) :
    fetchForm form m =
      (form.fill (operands m.bus m.cpu.regs.pc) (operands m.bus (m.cpu.regs.pc + 1)),
        m.onRegs (Registers.skipped form.length)) := by
  cases form with
  | fixed i =>
      simp [fetchForm, pure_apply, Form.fill, Form.length, Machine.onRegs, Machine.onCpu,
        Cpu.modifyRegs, Registers.skipped]
  | byte make => simp only [fetchForm, bind_apply, pure_apply, fetchOperand_static h]; rfl
  | word make =>
      simp only [fetchForm, bind_apply, pure_apply, fetchOperand_static h, Machine.onRegs_onRegs]
      have hskip : Registers.skipped 1 ∘ Registers.skipped 1 = Registers.skipped 2 := by
        funext r
        simp only [Function.comp, Registers.skipped, BitVec.add_assoc]
        rfl
      rw [hskip]
      rfl

theorem fetch_static {m : Machine σ δ} {i : Instr} {n : Nat}
    (hi : Spells opcodes operands m.bus m.cpu.regs.pc i n) :
    fetch m = (⟨false, i⟩, m.onRegs (Registers.skipped n ∘ Registers.passed)) := by
  obtain ⟨form, hform, rfl, rfl⟩ := hi
  simp only [fetch, bind_apply, fetchOpcode_static h, hform, fetchForm_static h, pure_apply]
  rfl

theorem fetchIndexed_static (p : Pointer) (m : Machine σ δ)
    (hc : (fetchIndexed p m).1.instr.closesLoop) : ∃ i n,
      Spells opcodes operands m.bus m.cpu.regs.pc i n ∧
      fetchIndexed p m = (⟨true, i⟩, m.onRegs (Registers.skipped n ∘ Registers.passed)) := by
  simp only [fetchIndexed, bind_apply, peekOpcode_static h] at hc ⊢
  cases hop : Opcode.decode p (opcodes m.bus m.cpu.regs.pc) with
  | index q =>
      simp only [hop, pure_apply] at hc
      cases hc
  | instr form =>
      simp only [hop, passOpcode_apply, fetchForm_static h, bind_apply, pure_apply] at hc ⊢
      exact ⟨_, _, ⟨form, Opcode.decode_shared hop hc, rfl, rfl⟩, rfl⟩
  | bits =>
      simp only [hop, bind_apply, pure_apply] at hc
      cases hc
  | extended =>
      simp only [hop, bind_apply, pure_apply, fetchForm_static h,
        Form.closesLoop_ofExtended] at hc
      cases hc

/-- An instruction that closes a loop stands in the stream by itself, where
it is prefixed from the byte after its prefix on. -/
theorem fetch_closesLoop (m : Machine σ δ) (hc : (fetch m).1.instr.closesLoop) :
    ∃ indexed i n k, ∃ addr : Word, addr = m.cpu.regs.pc + (if indexed then 1 else 0) ∧
      Spells opcodes operands m.bus addr i n ∧
      fetch m = (⟨indexed, i⟩, m.onRegs fun r =>
        { Registers.refresh k r with pc := addr + 1 + BitVec.ofNat 16 n }) := by
  simp only [fetch, bind_apply, fetchOpcode_static h] at hc ⊢
  cases hop : Opcode.decode .hl (opcodes m.bus m.cpu.regs.pc) with
  | index p =>
      -- Behind the prefix stands a code that means the same without it.
      simp only [hop] at hc
      obtain ⟨i, n, hi, hfetch⟩ := fetchIndexed_static h p (m.onRegs Registers.passed) hc
      refine ⟨true, i, n, 2, m.cpu.regs.pc + 1, rfl, hi, ?_⟩
      have hregs : Registers.skipped n (Registers.passed m.cpu.regs.passed) =
          { Registers.refresh 2 m.cpu.regs with
            pc := m.cpu.regs.pc + 1 + 1 + BitVec.ofNat 16 n } := by
        rw [← Registers.refresh_refresh 1 1]
        rfl
      simp only [hfetch]
      exact congrArg (fun r => ((⟨true, i⟩ : Operation), m.onRegs fun _ => r)) hregs
  | instr form =>
      simp only [fetchForm_static h, bind_apply, pure_apply]
      exact ⟨false, _, _, 1, m.cpu.regs.pc, (BitVec.add_zero _).symm, ⟨form, hop, rfl, rfl⟩, rfl⟩
  | bits =>
      simp only [hop, bind_apply, pure_apply, Instr.closesLoop_ofBits] at hc
      cases hc
  | extended =>
      simp only [hop, bind_apply, pure_apply, fetchForm_static h, Form.closesLoop_ofExtended] at hc
      cases hc

variable [Peripheral δ]

theorem step_static {m : Machine σ δ} {i : Instr} {n : Nat}
    (hi : Spells opcodes operands m.bus m.cpu.regs.pc i n) :
    step m =
      let r := execute i (m.onRegs (Registers.fetched n))
      ((⟨false, i⟩, Operation.cost ⟨false, i⟩ r.1), r.2.onCpu (Cpu.retire i)) := by
  have hfetch := fetch_static (m := m.onRegs Registers.start) h hi
  rw [step_apply, hfetch]
  rfl

end
end Exec
end Z80
