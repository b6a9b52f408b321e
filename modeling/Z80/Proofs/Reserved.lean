import Z80.Proofs.Modes
import Z80.Proofs.Pointers
import Z80.Proofs.Refresh

/-!
The registers that few instructions write. The opcodes of an instruction tell
which of them it may write, and an interrupt writes the flip-flops alone. So a run
leaves such a register as it is unless one of its boundaries writes it.
-/
namespace Z80

variable {σ δ : Type}

/-- The exchange set, the interrupt registers, the top bit of the refresh counter
and the index registers. -/
inductive Reserved
  | af' | bc' | de' | hl' | i | im | rTop | iff1 | iff2 | ix | iy
deriving DecidableEq

/-- The opcodes behind an index prefix, if there is one in front. -/
def Opcode.bare : List Byte → List Byte
  | [] => []
  | code :: rest => if prefixes.contains code then rest else code :: rest

/-- The prefix that puts a pointer into the place of HL. -/
def Pointer.opcodes : Pointer → List Byte
  | .hl => []
  | .ix => [0xDD]
  | .iy => [0xFD]

namespace Reserved

def all : List Reserved :=
  [.af', .bc', .de', .hl', .i, .im, .rTop, .iff1, .iff2, .ix, .iy]

theorem mem_all (k : Reserved) : k ∈ all := by
  cases k <;> decide

/-- What is read off the registers. -/
def value : Reserved → Registers → Word
  | .af', r => r.af'
  | .bc', r => r.bc'
  | .de', r => r.de'
  | .hl', r => r.hl'
  | .i, r => Word.ofByte r.i
  | .im, r => Word.ofByte r.im
  | .rTop, r => Word.ofBool r.r.msb
  | .iff1, r => Word.ofBool r.iff1
  | .iff2, r => Word.ofBool r.iff2
  | .ix, r => r.ix
  | .iy, r => r.iy

/-- The second opcodes of `IM`. -/
def modeCodes : List Byte :=
  [0x46, 0x4E, 0x56, 0x5E, 0x66, 0x6E, 0x76, 0x7E]

/-- The second opcodes of the returns from interrupt. -/
def returnCodes : List Byte :=
  [0x45, 0x4D, 0x55, 0x5D, 0x65, 0x6D, 0x75, 0x7D]

/-- The opcodes of the instructions that may write. An index register is written
behind its own prefix only, and no other one minds a prefix. -/
def codes (k : Reserved) (opcodes : List Byte) : Bool :=
  match k with
  | .af' => Opcode.bare opcodes == [0x08]
  | .bc' | .de' | .hl' => Opcode.bare opcodes == [0xD9]
  | .i => Opcode.bare opcodes == [0xED, 0x47]
  | .im => (modeCodes.map fun code => [0xED, code]).contains (Opcode.bare opcodes)
  | .rTop => Opcode.bare opcodes == [0xED, 0x4F]
  | .iff1 =>
    ([0xFB] :: [0xF3] :: returnCodes.map fun code => [0xED, code]).contains (Opcode.bare opcodes)
  | .iff2 => [[0xFB], [0xF3]].contains (Opcode.bare opcodes)
  | .ix => opcodes.head? == some 0xDD
  | .iy => opcodes.head? == some 0xFD

end Reserved

namespace Instr

/-- What the instruction writes beside the index registers. -/
def reserved : Instr → List Reserved
  | .exAF => [.af']
  | .exx => [.bc', .de', .hl']
  | .ldSystem .i => [.i]
  | .ldSystem .r => [.rTop]
  | .im _ => [.im]
  | .retn | .reti => [.iff1]
  | .di | .ei => [.iff1, .iff2]
  | _ => []

def writes (k : Reserved) (i : Instr) : Bool :=
  match k with
  | .ix => i.sets .ix
  | .iy => i.sets .iy
  | k => i.reserved.contains k

theorem sets_blank (p : Pointer) (i : Instr) : i.blank.sets p = i.sets p := by
  cases i with
  | inc q | dec q => cases q <;> rfl
  | bits _ q _ => cases q <;> rfl
  | _ => rfl

theorem reserved_blank (i : Instr) : i.blank.reserved = i.reserved := by
  cases i <;> rfl

/-- Operand bytes do not tell what an instruction writes. -/
theorem writes_blank (k : Reserved) (i : Instr) : i.blank.writes k = i.writes k := by
  cases k with
  | ix | iy => exact sets_blank _ i
  | _ => exact congrArg (fun l => List.contains l _) i.reserved_blank

end Instr

namespace Reserved

/-! The opcodes tell what an instruction writes, page by page. -/

theorem codes_decode (p : Pointer) (op : Byte) : ∀ k ∈ all, ∀ i ∈ (Opcode.decode p op).sample?,
    i.writes k → k.codes (p.opcodes ++ [op]) := by
  revert op
  cases p <;> decide +kernel

theorem codes_ofBits (op : Byte) : ∀ k ∈ all, (Instr.ofBits op).writes k = false := by
  revert op
  decide +kernel

theorem codes_ofExtended (p : Pointer) (op : Byte) : ∀ k ∈ all,
    (Form.ofExtended op).sample.writes k → k.codes (p.opcodes ++ [0xED, op]) := by
  revert op
  cases p <;> decide +kernel

theorem writes_ofIndexedBits (k : Reserved) (p : Pointer) (d op : Byte) :
    (Instr.ofIndexedBits p d op).writes k = false := by
  have hcopy (q : Pointer) (h : q ≠ .hl) (n : Nat) :
      (Reg8.ofCode n).any (Reg8.isHalf q) = false := by
    cases q with
    | hl => exact absurd rfl h
    | ix | iy =>
        simp only [Reg8.ofCode]
        split <;> rfl
  cases k with
  | ix => exact hcopy .ix nofun _
  | iy => exact hcopy .iy nofun _
  | _ => rfl

/-- An instruction that writes is one of those with the right opcodes. -/
theorem codes_of_reads {n : Nat} {opcodes operands : List Byte} {op : Operation}
    (h : Reads n opcodes operands op) {k : Reserved} (hwrites : op.instr.writes k) :
    k.codes opcodes := by
  have hmain {p : Pointer} {code : Byte} {form : Form} {a b : Byte}
      (hform : Opcode.decode p code = .instr form) (hw : (form.fill a b).writes k) :
      k.codes (p.opcodes ++ [code]) := by
    rw [← Instr.writes_blank, Form.blank_decode a b hform, Instr.writes_blank] at hw
    exact codes_decode p code k k.mem_all _ (congrArg Opcode.sample? hform) hw
  have hextended (p : Pointer) {code a b : Byte}
      (hw : ((Form.ofExtended code).fill a b).writes k) : k.codes (p.opcodes ++ [0xED, code]) := by
    rw [← Instr.writes_blank, Form.blank_ofExtended, Instr.writes_blank] at hw
    exact codes_ofExtended p code k k.mem_all hw
  cases h with
  | main hform => exact hmain hform hwrites
  | bits op => exact absurd hwrites (Bool.eq_false_iff.mp (codes_ofBits op k k.mem_all))
  | extended => exact hextended .hl hwrites
  | superseded _ _ => cases k <;> cases hwrites
  | indexed hfirst hform => cases hfirst <;> exact hmain hform hwrites
  | indexedBits _ => exact absurd hwrites (Bool.eq_false_iff.mp (writes_ofIndexedBits ..))
  | indexedExtended hfirst =>
      cases hfirst with
      | ix => exact hextended .ix hwrites
      | iy => exact hextended .iy hwrites

/-! What leaves the registers alone. -/

variable (k : Reserved)

theorem value_refresh (n : Nat) (r : Registers) : k.value (Registers.refresh n r) = k.value r := by
  cases k with
  | rTop => exact congrArg Word.ofBool (Registers.msb_refresh n r)
  | _ => rfl

theorem value_placeless : Registers.Placeless k.value := by
  cases k <;> exact fun _ _ _ _ => rfl

theorem value_streamed (n l : Nat) (r : Registers) : k.value (r.streamed n l) = k.value r :=
  (k.value_placeless (Registers.refresh n r) _ r.sp r.wz).trans (k.value_refresh n r)

theorem value_start (r : Registers) : k.value r.start = k.value r := by
  cases k <;> rfl

theorem value_leaveHalt (r : Registers) : k.value r.leaveHalt = k.value r := by
  rw [Registers.leaveHalt_eq]
  cases k <;> rfl

theorem value_afterCountdown (r : Registers) (c : Counter) (addr : Word) (n : Nat) :
    k.value (r.afterCountdown c addr n) = k.value r := by
  refine Eq.trans ?_ (k.value_refresh (4 * n) r)
  cases c <;> cases k <;> rfl

theorem value_afterIdle {k : Reserved} (h : k ≠ .iff2) (addr : Word) (n : Nat) (enable : Bool)
    (r : Registers) : k.value (r.afterIdle addr n enable) = k.value r := by
  refine Eq.trans ?_ (k.value_refresh n r)
  cases k with
  | iff2 => exact absurd rfl h
  | _ => rfl

theorem value_of_system {k : Reserved} (hr : k ≠ .rTop) (hx : k ≠ .ix) (hy : k ≠ .iy)
    {r s : Registers} (h : r.system = s.system) : k.value r = k.value s := by
  have hsystem (r : Registers) : k.value r.system = k.value r := by
    cases k <;> first | rfl | contradiction
  rw [← hsystem r, h, hsystem s]

end Reserved

namespace Exec

open Reserved (value value_placeless)

variable [Bus σ] [Peripheral δ] {k : Reserved}

theorem keeps_value_system {i : Instr} (hi : i.isSystem) (h : i.writes k = false) :
    Keeps k.value (execute i : Exec σ δ Bool) := by
  have hret : Keeps k.value (ret : Exec σ δ Unit) := .ret k.value_placeless
  cases i with
  | exAF =>
      cases k with
      | af' => cases h
      | _ => exact .bind (.modifyRegs fun _ => rfl) fun _ => .pure _
  | exx =>
      cases k with
      | bc' | de' | hl' => cases h
      | _ => exact .bind (.modifyRegs fun _ => rfl) fun _ => .pure _
  | di | ei =>
      cases k with
      | iff1 | iff2 => cases h
      | _ => exact .bind (.modifyRegs fun _ => rfl) fun _ => .pure _
  | im _ =>
      cases k with
      | im => cases h
      | _ => exact .bind (.modifyRegs fun _ => rfl) fun _ => .pure _
  | ldSystem dst =>
      cases dst with
      | i =>
          cases k with
          | i => cases h
          | _ => exact .bind (.modifyRegs fun _ => rfl) fun _ => .pure _
      | r =>
          cases k with
          | rTop => cases h
          | _ => exact .bind (.modifyRegs fun _ => rfl) fun _ => .pure _
  | halt => cases k <;> exact .bind (.modifyRegs fun _ => rfl) fun _ => .pure _
  | retn =>
      cases k with
      | iff1 => cases h
      | _ => exact .bind (.bind hret fun _ => .modifyRegs fun _ => rfl) fun _ => .pure _
  | reti =>
      cases k with
      | iff1 => cases h
      | _ =>
          exact .bind (.bind hret fun _ => .bind (.modifyRegs fun _ => rfl) fun _ _ => rfl)
            fun _ => .pure _
  | _ => cases hi

/-- An instruction leaves alone what it does not write. -/
theorem keeps_value {i : Instr} (h : i.writes k = false) :
    Keeps k.value (execute i : Exec σ δ Bool) := by
  cases hi : i.isSystem with
  | true => exact keeps_value_system hi h
  | false =>
      cases k with
      | ix | iy => exact KeepsPointer.execute h
      | rTop =>
          refine (keeps_r ?_).mono (congrArg fun v : Byte => Word.ofBool v.msb)
          rintro rfl
          cases hi
      | _ =>
          exact (keeps_execute hi).mono
            (Reserved.value_of_system (by decide) (by decide) (by decide))

theorem step_value {m : Machine σ δ} (h : (step m).1.1.instr.writes k = false) :
    k.value (step m).2.cpu.regs = k.value m.cpu.regs := by
  have hfetch := Keeps.fetch_of_streamed (σ := σ) (δ := δ) k.value_streamed
    (m.onRegs Registers.start)
  calc k.value (step m).2.cpu.regs
      = k.value (execute (step m).1.1.instr (fetch (m.onRegs Registers.start)).2).2.cpu.regs := rfl
    _ = k.value (fetch (m.onRegs Registers.start)).2.cpu.regs := keeps_value h _
    _ = k.value m.cpu.regs.start := hfetch
    _ = k.value m.cpu.regs := k.value_start _

theorem step_codes {m : Machine σ δ} (h : k.value (step m).2.cpu.regs ≠ k.value m.cpu.regs) :
    k.codes m.opcodes := by
  cases hw : (step m).1.1.instr.writes k with
  | false => exact absurd (step_value hw) h
  | true =>
      obtain ⟨n, operands, hreads⟩ := m.exists_reads_opcodes
      exact Reserved.codes_of_reads hreads hw

/-! The accelerator. Of the registers it writes only IFF2, for an `EI` whose rounds
it skips. -/

/-- Rounds of a loop of an `EI` and a jump back to it are skipped after the
instruction at the program counter. -/
def skipsEI (remaining : Nat) (m : Machine σ δ) : Bool :=
  let r := step m
  let regs := r.2.cpu.regs
  r.1.1.instr.isJump && regs.pc == regs.prepc + (if r.1.1.indexed then 1 else 0) - 1 &&
    (read regs.pc r.2).1 == 0xFB && 0 < (accelerate r.1.1 (remaining - r.1.2) r.2).1

omit [Bus σ] [Peripheral δ] in
theorem skip_iff2 (addr : Word) (remaining round refreshes : Nat) (m : Machine σ δ) :
    (skipIdle.skip addr remaining round refreshes false m).2.cpu.regs.iff2 = m.cpu.regs.iff2 := by
  rw [skip_apply]
  split
  · rfl
  · exact Bool.or_false _

omit [Peripheral δ] in
theorem skipIdle_iff2 {addr : Word} {cost remaining : Nat} {m : Machine σ δ}
    (h : (skipIdle addr cost remaining m).2.cpu.regs.iff2 ≠ m.cpu.regs.iff2) :
    m.cpu.regs.pc = addr - 1 ∧ (read m.cpu.regs.pc m).1 = 0xFB ∧
      0 < (skipIdle addr cost remaining m).1 := by
  simp only [skipIdle, regs_bind, ite_apply] at h ⊢
  by_cases hself : m.cpu.regs.pc = addr
  · rw [if_pos hself] at h
    exact absurd (skip_iff2 ..) h
  by_cases hback : m.cpu.regs.pc = addr - 1
  · rw [if_neg hself, if_pos hback, bind_apply, ite_apply] at h ⊢
    by_cases hnop : (read m.cpu.regs.pc m).1 = 0x00
    · rw [if_pos hnop] at h
      exact absurd (skip_iff2 ..) h
    rw [if_neg hnop, ite_apply] at h ⊢
    by_cases hei : (read m.cpu.regs.pc m).1 = 0xFB ∧ m.cpu.regs.iff1
    · rw [if_pos hei, skip_apply] at h ⊢
      by_cases hzero : skippable remaining (Instr.ei.cost + cost) = 0
      · rw [if_pos hzero] at h
        exact absurd rfl h
      · rw [if_neg hzero]
        have hcost : 0 < Instr.ei.cost + cost := Nat.add_pos_left (by decide) _
        exact ⟨hback, hei.1, Nat.mul_pos (Nat.pos_of_ne_zero hzero) hcost⟩
    · rw [if_neg hei] at h
      exact absurd rfl h
  · rw [if_neg hself, if_neg hback] at h
    exact absurd rfl h

theorem skipsEI_of_iff2 {remaining : Nat} {m : Machine σ δ}
    (h : (stepAndSkip remaining m).2.cpu.regs.iff2 ≠ (step m).2.cpu.regs.iff2) :
    skipsEI remaining m := by
  have haccelerate := accelerate_apply (step m).1.1 (remaining - (step m).1.2) (step m).2
  simp only [stepAndSkip_apply] at h
  by_cases hcan : (step m).2.cpu.canAccelerate (remaining - (step m).1.2)
  · by_cases hjump : (step m).1.1.instr.isJump
    · rw [if_pos hcan, if_pos hjump] at haccelerate
      rw [haccelerate] at h
      obtain ⟨hback, hei, hskips⟩ := skipIdle_iff2 h
      rw [← haccelerate] at hskips
      simp only [skipsEI, Bool.and_eq_true, beq_iff_eq, decide_eq_true_eq]
      exact ⟨⟨⟨hjump, hback⟩, hei⟩, hskips⟩
    · rw [if_pos hcan, if_neg hjump] at haccelerate
      rw [haccelerate] at h
      cases hcounter : Counter.ofInstr? (step m).1.1.instr with
      | some c =>
          rw [hcounter] at h
          exact absurd (keeps_skipCountdown (fun r c _ _ => by cases c <;> rfl) c _ _) h
      | none =>
          rw [hcounter] at h
          exact absurd rfl h
  · rw [if_neg hcan] at haccelerate
    rw [haccelerate] at h
    exact absurd rfl h

/-- An instruction and the rounds that are skipped after it. -/
theorem stepAndSkip_codes {remaining : Nat} {m : Machine σ δ}
    (h : k.value (stepAndSkip remaining m).2.cpu.regs ≠ k.value m.cpu.regs) :
    k.codes m.opcodes ∨ k = .iff2 ∧ skipsEI remaining m := by
  by_cases hstep : k.value (step m).2.cpu.regs = k.value m.cpu.regs
  · rw [← hstep] at h
    by_cases hk : k = .iff2
    · subst hk
      exact .inr ⟨rfl, skipsEI_of_iff2 fun heq => h (congrArg Word.ofBool heq)⟩
    · have hskip := keeps_accelerate (fun r _ _ _ => Reserved.value_afterIdle hk _ _ _ r)
        k.value_afterCountdown (step m).1.1 (remaining - (step m).1.2) (step m).2
      exact absurd hskip h
  · exact .inl (step_codes hstep)

/-! Interrupts. -/

omit [Peripheral δ] in
theorem takeNmi_value (h : k ≠ .iff1) (m : Machine σ δ) :
    k.value (takeNmi m).2.cpu.regs = k.value m.cpu.regs := by
  have henter := Keeps.enter (σ := σ) (δ := δ) k.value_placeless nmiEntry (m.onCpu Cpu.acceptNmi)
  refine henter.trans (Eq.trans ?_ (k.value_leaveHalt m.cpu.regs))
  refine Eq.trans ?_ (k.value_refresh 1 m.cpu.regs.leaveHalt)
  cases k with
  | iff1 => exact absurd rfl h
  | _ => rfl

theorem takeIrq_value (h : k ≠ .iff1) (h' : k ≠ .iff2) (m : Machine σ δ) :
    k.value (takeIrq m).2.cpu.regs = k.value m.cpu.regs := by
  obtain ⟨mode, data, n, hcpu, henter⟩ := takeIrq_enters m
  rw [henter, Keeps.enterMode k.value_placeless mode data n, hcpu]
  refine Eq.trans ?_ (k.value_leaveHalt m.cpu.regs)
  refine Eq.trans ?_ (k.value_refresh 1 m.cpu.regs.leaveHalt)
  cases k with
  | iff1 => exact absurd rfl h
  | iff2 => exact absurd rfl h'
  | _ => rfl

end Exec

namespace Machine

variable [Bus σ] [Peripheral δ]

/-- What happens at a boundary may write a register, with so much of the run left. -/
def touches (k : Reserved) (remaining : Nat) (m : Machine σ δ) : Bool :=
  match m.cpu.boundary with
  | .nmi => k == .iff1
  | .irq => k == .iff1 || k == .iff2
  | .free =>
    let m := m.onCpu Cpu.passDelay
    !m.cpu.regs.halted && (k.codes m.opcodes || (k == .iff2 && Exec.skipsEI remaining m))

/-- The boundaries of a run, each with what is left there. -/
def boundaries (remaining : Nat) (m : Machine σ δ) : List (Nat × Machine σ δ) :=
  if h : 0 < remaining then
    have := Exec.four_le_advance h m
    let r := Exec.advance remaining m
    (remaining, m) :: boundaries (remaining - r.1) (r.2.elapse r.1)
  else
    []
termination_by remaining
decreasing_by omega

theorem boundaries_of_pos {remaining : Nat} (h : 0 < remaining) (m : Machine σ δ) :
    m.boundaries remaining =
      let r := Exec.advance remaining m
      (remaining, m) :: (r.2.elapse r.1).boundaries (remaining - r.1) := by
  rw [boundaries]
  simp only [h, ↓reduceDIte]

variable {k : Reserved}

theorem advance_value {remaining : Nat} {m : Machine σ δ} (h : m.touches k remaining = false) :
    k.value (Exec.advance remaining m).2.cpu.regs = k.value m.cpu.regs := by
  cases hboundary : m.cpu.boundary with
  | nmi =>
      simp only [touches, hboundary, beq_eq_false_iff_ne] at h
      rw [Exec.advance_nmi remaining hboundary, Exec.takeNmi_value h]
  | irq =>
      simp only [touches, hboundary, Bool.or_eq_false_iff, beq_eq_false_iff_ne] at h
      rw [Exec.advance_irq remaining hboundary, Exec.takeIrq_value h.1 h.2]
  | free =>
      cases hhalted : m.cpu.regs.halted with
      | true =>
          rw [Exec.advance_halted remaining hboundary hhalted]
          exact k.value_refresh _ m.cpu.regs
      | false =>
          have hpassed : (m.onCpu Cpu.passDelay).cpu.regs.halted = false := hhalted
          simp only [touches, hboundary, hpassed, Bool.not_false, Bool.true_and,
            Bool.or_eq_false_iff, Bool.and_eq_false_imp, beq_iff_eq] at h
          rw [Exec.advance_running remaining hboundary hhalted]
          by_contra hwritten
          rcases Exec.stepAndSkip_codes hwritten with hcodes | ⟨hk, hskips⟩
          · exact absurd hcodes (Bool.eq_false_iff.mp h.1)
          · exact absurd hskips (Bool.eq_false_iff.mp (h.2 hk))

theorem runFor_value {remaining : Nat} {m : Machine σ δ}
    (h : ∀ x ∈ m.boundaries remaining, x.2.touches k x.1 = false) :
    k.value (m.runFor remaining).cpu.regs = k.value m.cpu.regs := by
  induction remaining, m using runFor_induction with
  | done m => rw [runFor_zero]
  | round remaining m hpos ih =>
      rw [boundaries_of_pos hpos] at h
      have hround := advance_value (h _ List.mem_cons_self)
      have hrest := ih fun x hx => h x (List.mem_cons_of_mem _ hx)
      rw [elapse_regs, hround] at hrest
      rw [runFor_of_pos hpos]
      exact hrest

/-- The exchange set, the interrupt registers, the top bit of the refresh counter and
the index registers are written by few instructions, which their opcodes tell, and
the flip-flops by interrupts as well. Whatever else a run does leaves them alone. -/
theorem reserved_kept (k : Reserved) (m : Machine σ δ) :
    (∀ remaining, k.value (Exec.stepAndSkip remaining m).2.cpu.regs ≠ k.value m.cpu.regs →
      k.codes m.opcodes ∨ k = .iff2 ∧ Exec.skipsEI remaining m) ∧
    (k ≠ .iff1 → k.value (Exec.takeNmi m).2.cpu.regs = k.value m.cpu.regs) ∧
    (k ≠ .iff1 → k ≠ .iff2 → k.value (Exec.takeIrq m).2.cpu.regs = k.value m.cpu.regs) ∧
    ∀ budget : BitVec 32,
      (∀ x ∈ m.boundaries budget.toNat, x.2.touches k x.1 = false) →
      k.value (m.run budget).2.cpu.regs = k.value m.cpu.regs :=
  ⟨fun _ h => Exec.stepAndSkip_codes h, fun h => Exec.takeNmi_value h m,
    fun h h' => Exec.takeIrq_value h h' m, fun _ h => runFor_value h⟩

/-- An exchange behind a prefix, an `EI` whose rounds are skipped, both interrupts,
and a run that loads IX and leaves IY alone. -/
theorem reserved_kept_flat :
    let exchanging : Machine Bus.Flat StateLatch :=
      ⟨{ regs := { a := 0x12 } }, Bus.Flat.load 0 [0xDD, 0x08] {}⟩
    let waiting : Machine Bus.Flat StateLatch :=
      ⟨{ regs := { pc := 1, iff1 := true } }, Bus.Flat.load 0 [0xFB, 0x18, 0xFD] {}⟩
    let loading : Machine Bus.Flat StateLatch :=
      ⟨{}, Bus.Flat.load 0 [0xDD, 0x21, 0x34, 0x12, 0x76] {}⟩
    (Exec.stepAndSkip 8 exchanging).2.cpu.regs.af' = 0x1240 ∧ exchanging.opcodes = [0xDD, 0x08] ∧
    Reserved.af'.codes exchanging.opcodes ∧
    (Exec.stepAndSkip 100 waiting).2.cpu.regs.iff2 = true ∧ Exec.skipsEI 100 waiting ∧
    (Exec.takeNmi waiting).2.cpu.regs.iff2 = false ∧
    (Exec.takeIrq loading).2.cpu.regs.iy = 0xFFFF ∧
    (∀ x ∈ loading.boundaries 40, x.2.touches .iy x.1 = false) ∧
    (loading.run 40).2.cpu.regs.ix = 0x1234 ∧ (loading.run 40).2.cpu.regs.iy = 0xFFFF := by
  intro exchanging waiting loading
  have haf : (Exec.stepAndSkip 8 exchanging).2.cpu.regs.af' = 0x1240 := by
    decide +kernel
  have hiff2 : (Exec.stepAndSkip 100 waiting).2.cpu.regs.iff2 = true := by
    decide +kernel
  have hcodes : ¬Reserved.iff2.codes waiting.opcodes := by
    decide +kernel
  have hloading : ∀ x ∈ loading.boundaries 40, x.2.touches .iy x.1 = false := by
    decide +kernel
  have hiy : Reserved.iy.value loading.cpu.regs = 0xFFFF := by
    decide +kernel
  obtain ⟨hstep, -, -, -⟩ := reserved_kept .af' exchanging
  obtain ⟨hskip, hnmi, -, -⟩ := reserved_kept .iff2 waiting
  obtain ⟨-, -, hirq, hrun⟩ := reserved_kept .iy loading
  refine ⟨haf, by decide +kernel, (hstep 8 ?_).resolve_right nofun, hiff2, ?_, ?_,
    (hirq nofun nofun).trans hiy, hloading, by decide +kernel, (hrun 40 hloading).trans hiy⟩
  · decide +kernel
  · exact ((hskip 100 (by decide +kernel)).resolve_left hcodes).2
  · have hkept := hnmi nofun
    cases hentered : (Exec.takeNmi waiting).2.cpu.regs.iff2 with
    | false => rfl
    | true =>
        rw [Reserved.value, hentered] at hkept
        cases hkept

end Machine
end Z80
