import Z80.Proofs.Stream
import Z80.Proofs.Reach

/-!
Stretches through a static stream. A calm processor executes one after the
other what the stream spells; where that only changes registers, the stretch
as a whole is one change of the registers and the latches of the last
instruction.
-/
namespace Z80

variable {σ δ : Type}

namespace Instr

/-- The instruction leaves no latch set. -/
def isSilent (i : Instr) : Bool :=
  !i.setsFlags && !i.readsSystem && i != .ei

/-- Where a jump without a condition goes to. -/
def target (next : Word) : Instr → Word
  | .jp addr => addr
  | .jr d => next + Word.displacement d
  | _ => next

def filler (enable : Bool) : Instr :=
  bif enable then .ei else .nop

theorem isSilent_of_isJump {i : Instr} (h : i.isJump) : i.isSilent := by
  cases i with
  | jp _ | jr _ => rfl
  | _ => cases h

end Instr

namespace Registers

def jumped (w : Word) (r : Registers) : Registers :=
  { r with pc := w, wz := w }

/-- How many operand bytes a jump had is not seen after it. -/
theorem jumped_fetched (n : Nat) (w : Word) : jumped w ∘ fetched n = jumped w ∘ fetched 0 := by
  funext r
  simp [jumped, fetched, skipped, passed, start, refresh]

section

variable (n : Nat) (r : Registers)

@[simp] theorem fetched_pc : (r.fetched n).pc = r.pc + 1 + BitVec.ofNat 16 n := by
  simp [fetched, skipped, passed, start]

@[simp] theorem fetched_halted : (r.fetched n).halted = r.halted := by
  simp [fetched, skipped, passed, start, refresh]

@[simp] theorem fetched_iff1 : (r.fetched n).iff1 = r.iff1 := by
  simp [fetched, skipped, passed, start, refresh]

end

def enabled (enable : Bool) (r : Registers) : Registers :=
  { r with iff1 := r.iff1 || enable, iff2 := r.iff2 || enable }

end Registers

namespace Cpu

/-- No latch of the last instruction is set. -/
structure Settled (cpu : Cpu δ) : Prop where
  eiDelay : cpu.eiDelay = false
  afterLdAIR : cpu.afterLdAIR = false
  q : cpu.q = {}

def after (i : Instr) (g : Registers → Registers) (cpu : Cpu δ) : Cpu δ :=
  (cpu.modifyRegs g).retire i

theorem after_after (i j : Instr) (g k : Registers → Registers) (cpu : Cpu δ) :
    (cpu.after i g).after j k = cpu.after j (k ∘ g) := rfl

theorem settled_after {i : Instr} (h : i.isSilent) (g : Registers → Registers) (cpu : Cpu δ) :
    (cpu.after i g).Settled := by
  simp only [Instr.isSilent, Bool.and_eq_true, Bool.not_eq_true', bne_iff_ne] at h
  obtain ⟨⟨hflags, hsystem⟩, hei⟩ := h
  exact ⟨by simp [after, retire, hei], hsystem, by simp [after, retire, hflags]⟩

theorem Settled.after_eq {cpu : Cpu δ} (h : cpu.Settled) {i : Instr} (hi : i.isSilent)
    (g : Registers → Registers) : cpu.after i g = cpu.modifyRegs g := by
  have hafter := settled_after hi g cpu
  calc cpu.after i g
      = { cpu.modifyRegs g with
          eiDelay := (cpu.after i g).eiDelay
          afterLdAIR := (cpu.after i g).afterLdAIR
          q := (cpu.after i g).q } := rfl
    _ = { cpu.modifyRegs g with
          eiDelay := cpu.eiDelay
          afterLdAIR := cpu.afterLdAIR
          q := cpu.q } := by
        rw [hafter.eiDelay, hafter.afterLdAIR, hafter.q, h.eiDelay, h.afterLdAIR, h.q]
    _ = cpu.modifyRegs g := rfl

theorem Settled.modifyRegs {cpu : Cpu δ} (h : cpu.Settled) (g : Registers → Registers) :
    (cpu.modifyRegs g).Settled :=
  ⟨h.eiDelay, h.afterLdAIR, h.q⟩

theorem Calm.modifyRegs {cpu : Cpu δ} (h : cpu.Calm) {g : Registers → Registers}
    (hhalted : (g cpu.regs).halted = cpu.regs.halted)
    (hiff1 : (g cpu.regs).iff1 = cpu.regs.iff1) : (cpu.modifyRegs g).Calm where
  literal := h.literal
  running := hhalted.trans h.running
  quiet := by
    have hquiet := h.quiet
    simp only [interruptPossible, ← hiff1] at hquiet
    exact hquiet

theorem Calm.after {cpu : Cpu δ} (h : cpu.Calm) {g : Registers → Registers}
    (hhalted : (g cpu.regs).halted = cpu.regs.halted)
    (hiff1 : (g cpu.regs).iff1 = cpu.regs.iff1) (i : Instr) : (cpu.after i g).Calm :=
  have hcalm := h.modifyRegs hhalted hiff1
  ⟨hcalm.literal, hcalm.running, hcalm.quiet⟩

end Cpu

@[simp] theorem Operation.cost_false (i : Instr) : cost ⟨false, i⟩ false = i.cost := by
  simp [cost]

theorem Machine.onRegs_retire (g : Registers → Registers) (i : Instr) (m : Machine σ δ) :
    (m.onRegs g).onCpu (Cpu.retire i) = m.onCpu (Cpu.after i g) := rfl

theorem Machine.after_congr {g k : Registers → Registers} {m : Machine σ δ}
    (h : g m.cpu.regs = k m.cpu.regs) (i : Instr) :
    m.onCpu (Cpu.after i g) = m.onCpu (Cpu.after i k) := by
  simp only [onCpu, Cpu.after, Cpu.modifyRegs, h]

@[simp] theorem Machine.after_regs (i : Instr) (g : Registers → Registers) (m : Machine σ δ) :
    (m.onCpu (Cpu.after i g)).cpu.regs = g m.cpu.regs := rfl

@[simp] theorem Machine.onCpu_cpu (φ : Cpu δ → Cpu δ) (m : Machine σ δ) :
    (m.onCpu φ).cpu = φ m.cpu := rfl

@[simp] theorem Machine.onCpu_bus (φ : Cpu δ → Cpu δ) (m : Machine σ δ) :
    (m.onCpu φ).bus = m.bus := rfl

theorem Machine.after_after (i j : Instr) (g k : Registers → Registers) (m : Machine σ δ) :
    (m.onCpu (Cpu.after i g)).onCpu (Cpu.after j k) = m.onCpu (Cpu.after j (k ∘ g)) := rfl

theorem Machine.onRegs_congr {g k : Registers → Registers} {m : Machine σ δ}
    (h : g m.cpu.regs = k m.cpu.regs) : m.onRegs g = m.onRegs k := by
  simp only [onRegs, onCpu, Cpu.modifyRegs, h]

theorem Machine.after_settled {m : Machine σ δ} (h : m.cpu.Settled) {i : Instr}
    (hi : i.isSilent) (g : Registers → Registers) :
    m.onCpu (Cpu.after i g) = m.onRegs g := by
  simp only [onRegs, onCpu, h.after_eq hi]

@[simp] theorem Machine.onRegs_iterate (g : Registers → Registers) (n : Nat) (m : Machine σ δ) :
    (Machine.onRegs g)^[n] m = m.onRegs g^[n] := by
  induction n generalizing m with
  | zero => rfl
  | succ n ih => rw [Function.iterate_succ_apply, ih, Machine.onRegs_onRegs, Function.iterate_succ]

namespace Exec

variable [Bus σ] [Peripheral δ] {data opcodes operands : σ → Word → Byte}

theorem execute_jump {i : Instr} (h : i.isJump) (m : Machine σ δ) :
    execute i m = (false, m.onRegs fun r => r.jumped (i.target r.pc)) := by
  cases i with
  | jp _ | jr _ => rfl
  | _ => cases h

theorem execute_filler (enable : Bool) (m : Machine σ δ) :
    execute (.filler enable) m = (false, m.onRegs (Registers.enabled enable)) := by
  cases enable with
  | false =>
      have hsame : m.onRegs (Registers.enabled false) = m := by
        simp only [Machine.onRegs, Machine.onCpu, Cpu.modifyRegs, Registers.enabled, Bool.or_false]
      rw [hsame]
      rfl
  | true =>
      have hset : Registers.enabled true = fun r => { r with iff1 := true, iff2 := true } := by
        funext r
        simp only [Registers.enabled, Bool.or_true]
      rw [hset]
      rfl

/-- A calm processor goes through instructions that change registers, the
last of which is `i`, and stays calm. -/
structure Runs (m : Machine σ δ) (cost : Nat) (i : Instr) (g : Registers → Registers) : Prop where
  reaches : m.Reaches cost (m.onCpu (Cpu.after i g))
  calm : (m.cpu.after i g).Calm

/-- The stream has a jump at an address which goes to another one. -/
def JumpsTo (opcodes operands : σ → Word → Byte) (bus : σ) (addr : Word) (i : Instr)
    (dest : Word) : Prop :=
  i.isJump ∧ ∃ n, Spells opcodes operands bus addr i n ∧
    i.target (addr + 1 + BitVec.ofNat 16 n) = dest

variable (h : Bus.Static data opcodes operands)
include h

/-- A calm processor executes what the stream spells at the program counter. -/
theorem Runs.first {m : Machine σ δ} {addr : Word} {i : Instr} {n : Nat} {taken : Bool}
    {g : Registers → Registers} (hcalm : m.cpu.Calm) (hpc : m.cpu.regs.pc = addr)
    (hi : Spells opcodes operands m.bus addr i n)
    (hx : execute i (m.onRegs (Registers.fetched n)) =
      (taken, (m.onRegs (Registers.fetched n)).onRegs g))
    (hhalted : (g (m.cpu.regs.fetched n)).halted = m.cpu.regs.halted)
    (hiff1 : (g (m.cpu.regs.fetched n)).iff1 = m.cpu.regs.iff1) :
    Runs m (Operation.cost ⟨false, i⟩ taken) i (g ∘ Registers.fetched n) := by
  subst hpc
  have hstep : step m = ((⟨false, i⟩, Operation.cost ⟨false, i⟩ taken),
      m.onCpu (Cpu.after i (g ∘ Registers.fetched n))) := by
    rw [step_static h hi]
    simp only [hx, Machine.onRegs_onRegs, Machine.onRegs_retire]
  have hreach := Machine.Reaches.step hcalm
  rw [hstep] at hreach
  have hcalm' := hcalm.after (g := g ∘ Registers.fetched n) hhalted hiff1 i
  exact ⟨hreach, hcalm'⟩

variable {m : Machine σ δ} {cost : Nat} {i : Instr} {g : Registers → Registers}

omit h in
theorem Runs.start (hcalm : m.cpu.Calm) (hsettled : m.cpu.Settled) : Runs m 0 .nop id where
  reaches := by
    rw [Machine.after_settled hsettled rfl]
    exact .refl m
  calm := hcalm.after rfl rfl .nop

theorem Runs.next (hrun : Runs m cost i g) {addr : Word} {j : Instr} {n : Nat} {taken : Bool}
    {k : Registers → Registers} (hpc : (g m.cpu.regs).pc = addr)
    (hj : Spells opcodes operands m.bus addr j n)
    (hx : ∀ m' : Machine σ δ, m'.cpu.regs = (g m.cpu.regs).fetched n →
      execute j m' = (taken, m'.onRegs k))
    (hhalted : (k ((g m.cpu.regs).fetched n)).halted = (g m.cpu.regs).halted)
    (hiff1 : (k ((g m.cpu.regs).fetched n)).iff1 = (g m.cpu.regs).iff1) :
    Runs m (cost + Operation.cost ⟨false, j⟩ taken) j (k ∘ Registers.fetched n ∘ g) := by
  -- The machine between the two stretches goes by a name, because `g` grows
  -- with every instruction.
  obtain ⟨mid, hmid⟩ : ∃ mid, mid = m.onCpu (Cpu.after i g) := ⟨_, rfl⟩
  have hregs : mid.cpu.regs = g m.cpu.regs := by
    rw [hmid, Machine.after_regs]
  have hbus : mid.bus = m.bus := by
    rw [hmid, Machine.onCpu_bus]
  have hcpu : mid.cpu = m.cpu.after i g := by
    rw [hmid, Machine.onCpu_cpu]
  obtain ⟨hreach, hcalm⟩ := hrun
  rw [← hmid] at hreach
  rw [← hcpu] at hcalm
  rw [← hregs] at hpc hhalted hiff1 hx
  rw [← hbus] at hj
  have hlast : mid.onCpu (Cpu.after j (k ∘ Registers.fetched n)) =
      m.onCpu (Cpu.after j (k ∘ Registers.fetched n ∘ g)) := by
    rw [hmid, Machine.after_after]
    rfl
  have hx' : execute j (mid.onRegs (Registers.fetched n)) =
      (taken, (mid.onRegs (Registers.fetched n)).onRegs k) :=
    hx _ (Machine.onRegs_regs _ _)
  obtain ⟨hrest, hcalm'⟩ := Runs.first h hcalm hpc hj hx' hhalted hiff1
  rw [hlast] at hrest
  rw [hcpu, Cpu.after_after] at hcalm'
  exact ⟨hreach.trans hrest, hcalm'⟩

theorem Runs.jump (hrun : Runs m cost i g) {addr dest : Word} {j : Instr}
    (hpc : (g m.cpu.regs).pc = addr) (hj : JumpsTo opcodes operands m.bus addr j dest) :
    Runs m (cost + j.cost) j (Registers.jumped dest ∘ Registers.fetched 0 ∘ g) := by
  obtain ⟨hjump, n, hj, htarget⟩ := hj
  have hx (m' : Machine σ δ) (hregs : m'.cpu.regs = (g m.cpu.regs).fetched n) :
      execute j m' = (false, m'.onRegs (Registers.jumped dest)) := by
    rw [execute_jump hjump]
    refine congrArg (Prod.mk false) (Machine.onRegs_congr ?_)
    rw [hregs, Registers.fetched_pc, hpc, htarget]
  have hnext := hrun.next h hpc hj hx (by simp [Registers.jumped]) (by simp [Registers.jumped])
  rw [Operation.cost_false] at hnext
  rwa [← Function.comp_assoc, Registers.jumped_fetched] at hnext

end Exec

end Z80
