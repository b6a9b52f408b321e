import Mathlib.Data.BitVec
import Z80.Proofs.Path

/-!
The known loops, run round by round. A round ends where it began with a few
registers changed, and many rounds in a row change them as the accelerator
does in one go.
-/
namespace Z80

variable {σ δ : Type}

/-- A calm processor has just jumped. -/
structure Cpu.Idle (dest : Word) (cpu : Cpu δ) : Prop where
  calm : cpu.Calm
  settled : cpu.Settled
  pc_eq : cpu.regs.pc = dest
  wz_eq : cpu.regs.wz = dest

theorem Cpu.Idle.afterIdle {dest : Word} {cpu : Cpu δ} (h : cpu.Idle dest) (addr : Word) (k : Nat)
    (enable : Bool) : (cpu.modifyRegs (Registers.afterIdle addr k enable)).Idle dest where
  calm := by
    refine h.calm.modifyRegs ?_ ?_
    · simp only [Registers.afterIdle, Registers.refresh]
    · simp only [Registers.afterIdle, Registers.refresh]
  settled := h.settled.modifyRegs _
  pc_eq := h.pc_eq
  wz_eq := h.wz_eq

namespace Registers

variable (addr : Word) (k : Nat) (enable : Bool)

theorem jumped_self {addr : Word} {r : Registers} (hpc : r.pc = addr) (hwz : r.wz = addr) :
    (r.fetched 0).jumped addr = r.afterIdle addr 1 false := by
  simp [jumped, fetched, skipped, passed, start, refresh, afterIdle, hpc, hwz]

theorem jumped_filled {addr : Word} {enable : Bool} {r : Registers} (hpc : r.pc = addr - 1)
    (hwz : r.wz = addr - 1) (hiff1 : (r.iff1 || enable) = r.iff1) :
    (((r.fetched 0).enabled enable).fetched 0).jumped (addr - 1) =
      r.afterIdle addr 2 enable := by
  have hrefresh := congrArg Registers.r (refresh_refresh 1 1 r)
  simp only [refresh] at hrefresh
  simp only [jumped, fetched, skipped, passed, start, enabled, refresh, afterIdle,
    Function.comp_apply, hrefresh, hpc, hwz, hiff1, BitVec.add_zero, BitVec.sub_add_cancel]

theorem afterIdle_afterIdle (j : Nat) (r : Registers) :
    (r.afterIdle addr j enable).afterIdle addr k enable = r.afterIdle addr (j + k) enable := by
  have hrefresh := congrArg (fun s : Registers =>
    { s with prepc := addr, iff2 := r.iff2 || enable }) (refresh_refresh j k r)
  have hiff2 : (r.iff2 || enable || enable) = (r.iff2 || enable) := by
    rw [Bool.or_assoc, Bool.or_self]
  simp only [afterIdle, hiff2]
  exact hrefresh

theorem afterIdle_iterate (n : Nat) (r : Registers) :
    (afterIdle addr k enable)^[n + 1] r = r.afterIdle addr (k * (n + 1)) enable := by
  induction n with
  | zero => rw [Nat.zero_add, Nat.mul_one, Function.iterate_one]
  | succ n ih =>
      rw [Function.iterate_succ_apply', ih, afterIdle_afterIdle]
      rfl

end Registers

namespace Exec

variable [Bus σ] [Peripheral δ] {data opcodes operands : σ → Word → Byte}
variable (h : Bus.Static data opcodes operands) {m : Machine σ δ}
include h

theorem reaches_selfJump {addr : Word} {i : Instr} (hidle : m.cpu.Idle addr)
    (hj : JumpsTo opcodes operands m.bus addr i addr) :
    m.Reaches i.cost (m.onRegs (Registers.afterIdle addr 1 false)) := by
  obtain ⟨hcalm, hsettled, hpc, hwz⟩ := hidle
  obtain ⟨hreach, -⟩ := (Runs.start hcalm hsettled).jump h hpc hj
  have hstate : m.onRegs (Registers.jumped addr ∘ Registers.fetched 0 ∘ id) =
      m.onRegs (Registers.afterIdle addr 1 false) :=
    Machine.onRegs_congr (Registers.jumped_self hpc hwz)
  rwa [Nat.zero_add, Machine.after_settled hsettled (Instr.isSilent_of_isJump hj.1),
    hstate] at hreach

theorem reaches_filledJump {addr : Word} {i : Instr} {enable : Bool}
    (hidle : m.cpu.Idle (addr - 1)) (hiff1 : enable → m.cpu.regs.iff1)
    (hfill : Spells opcodes operands m.bus (addr - 1) (.filler enable) 0)
    (hj : JumpsTo opcodes operands m.bus addr i (addr - 1)) :
    m.Reaches ((Instr.filler enable).cost + i.cost)
      (m.onRegs (Registers.afterIdle addr 2 enable)) := by
  obtain ⟨hcalm, hsettled, hpc, hwz⟩ := hidle
  have hkeep : (m.cpu.regs.iff1 || enable) = m.cpu.regs.iff1 := by
    cases enable with
    | false => exact Bool.or_false _
    | true => rw [hiff1 rfl, Bool.or_true]
  have hfilled := (Runs.start hcalm hsettled).next h hpc hfill
    (fun m' _ => execute_filler enable m') (by simp [Registers.enabled])
    (by simp [Registers.enabled, hkeep])
  have hnext : ((m.cpu.regs.fetched 0).enabled enable).pc = addr := by
    simp only [Registers.enabled, Registers.fetched_pc, hpc, BitVec.add_zero,
      BitVec.sub_add_cancel]
  obtain ⟨hreach, -⟩ := hfilled.jump h hnext hj
  have hstate : m.onRegs (Registers.jumped (addr - 1) ∘ Registers.fetched 0 ∘
      Registers.enabled enable ∘ Registers.fetched 0 ∘ id) =
      m.onRegs (Registers.afterIdle addr 2 enable) :=
    Machine.onRegs_congr (Registers.jumped_filled hpc hwz hkeep)
  rwa [Nat.zero_add, Operation.cost_false, Machine.after_settled hsettled
    (Instr.isSilent_of_isJump hj.1), hstate] at hreach

omit h in
theorem reaches_idleRounds {addr dest : Word} {round k : Nat} {enable : Bool}
    (hround : ∀ m' : Machine σ δ, m'.bus = m.bus → m'.cpu.Idle dest →
      m'.cpu.regs.iff1 = m.cpu.regs.iff1 →
        m'.Reaches round (m'.onRegs (Registers.afterIdle addr k enable)))
    (hidle : m.cpu.Idle dest) (n : Nat) :
    m.Reaches ((n + 1) * round) (m.onRegs (Registers.afterIdle addr (k * (n + 1)) enable)) := by
  have hreach := Machine.Reaches.iterate (n := n + 1) (m := m)
    (I := fun _ m' => m'.bus = m.bus ∧ m'.cpu.Idle dest ∧ m'.cpu.regs.iff1 = m.cpu.regs.iff1)
    (f := Machine.onRegs (Registers.afterIdle addr k enable))
    (fun _ m' ⟨hbus, hidle, hiff1⟩ => ⟨hround m' hbus hidle hiff1,
      hbus, hidle.afterIdle addr k enable, by
        rw [Machine.onRegs_regs, ← hiff1]
        simp only [Registers.afterIdle, Registers.refresh]⟩)
    ⟨rfl, hidle, rfl⟩
  have hstate : m.onRegs (Registers.afterIdle addr k enable)^[n + 1] =
      m.onRegs (Registers.afterIdle addr (k * (n + 1)) enable) :=
    Machine.onRegs_congr (Registers.afterIdle_iterate addr k enable n _)
  rwa [Machine.onRegs_iterate, hstate] at hreach

end Exec

namespace Counter

def high : Counter → Reg8
  | .bc => .b
  | .de => .d
  | .hl => .h

def low : Counter → Reg8
  | .bc => .c
  | .de => .e
  | .hl => .l

/-- The two halves of the pair in either order. -/
def Halves (c : Counter) (x y : Reg8) : Prop :=
  x = c.high ∧ y = c.low ∨ x = c.low ∧ y = c.high

theorem decode_of_isTest {c : Counter} {first second : Byte} (h : c.isTest first second) :
    ∃ x y, c.Halves x y ∧ Opcode.decode .hl first = .instr (.fixed (.ld .a x)) ∧
      Opcode.decode .hl second = .instr (.fixed (.alu .or (.reg y))) := by
  simp only [isTest, Bool.or_eq_true, Bool.and_eq_true, beq_iff_eq] at h
  rcases h with ⟨rfl, rfl⟩ | ⟨rfl, rfl⟩
  · refine ⟨c.high, c.low, .inl ⟨rfl, rfl⟩, ?_⟩
    cases c <;> exact ⟨rfl, rfl⟩
  · refine ⟨c.low, c.high, .inr ⟨rfl, rfl⟩, ?_⟩
    cases c <;> exact ⟨rfl, rfl⟩

end Counter

theorem Word.high_or_low_eq_zero {w : Word} : w.high ||| w.low = 0 ↔ w = 0 := by
  constructor
  · intro hzero
    obtain ⟨hhigh, hlow⟩ := BitVec.or_eq_zero_iff.mp hzero
    rw [← Word.ofBytes_high_low w, hhigh, hlow]
    rfl
  · rintro rfl
    rfl

namespace Registers

def orred (y : Reg8) (r : Registers) : Registers :=
  r.setResult (Alu.or r.a (r.reg8 y))

def lowered (c : Counter) (r : Registers) : Registers :=
  r.setReg16 c.pair (r.reg16 c.pair - 1)

/-- The load and the combination together test the pair. -/
theorem orred_ld {c : Counter} {x y : Reg8} (h : c.Halves x y) (r : Registers) :
    orred y (fetched 0 (setReg8 .a (r.reg8 x) r)) =
      (fetched 0 r).setResult (Alu.or (r.reg16 c.pair).high (r.reg16 c.pair).low) := by
  rcases h with ⟨rfl, rfl⟩ | ⟨rfl, rfl⟩
  · cases c <;> simp [orred, setReg8, reg8, Counter.high, Counter.low, Counter.pair, reg16, setResult,
      bc, de, hl, fetched, skipped, passed, start, refresh]
  · cases c <;> simp [orred, setReg8, reg8, Counter.high, Counter.low, Counter.pair, reg16, setResult,
      bc, de, hl, fetched, skipped, passed, start, refresh, Alu.or, BitVec.or_comm]

@[simp] theorem reg16_fetched (n : Nat) (c : Counter) (r : Registers) :
    (fetched n r).reg16 c.pair = r.reg16 c.pair := by
  cases c <;> simp [reg16, Counter.pair, bc, de, hl, fetched, skipped, passed, start, refresh]

@[simp] theorem fetched_f (n : Nat) (r : Registers) : (fetched n r).f = r.f := by
  simp [fetched, skipped, passed, start, refresh]

@[simp] theorem lowered_pc (c : Counter) (r : Registers) : (lowered c r).pc = r.pc := by
  cases c <;> rfl

@[simp] theorem lowered_halted (c : Counter) (r : Registers) :
    (lowered c r).halted = r.halted := by
  cases c <;> rfl

@[simp] theorem lowered_iff1 (c : Counter) (r : Registers) : (lowered c r).iff1 = r.iff1 := by
  cases c <;> rfl

theorem lowered_round (c : Counter) {addr : Word} {r : Registers} (hpc : r.pc = addr + 1) :
    ((((r.fetched 0).fetched 0).setResult
      (Alu.or (r.reg16 c.pair).high (r.reg16 c.pair).low)).fetched 0 |>.jumped addr
        |>.fetched 0).lowered c = r.afterCountdown c addr 1 := by
  have hrefresh : (refresh 1 (refresh 1 (refresh 1 (refresh 1 r)))).r = (refresh 4 r).r := by
    simp only [refresh_refresh]
  simp only [refresh] at hrefresh
  cases c <;>
    simp [lowered, fetched, skipped, passed, start, jumped, setResult, afterCountdown, Alu.or,
      Counter.pair, reg16, setReg16, setBC, setDE, setHL, bc, de, hl, refresh, hrefresh, hpc]

section

variable (c : Counter) (addr : Word) (n : Nat) (r : Registers)

theorem afterCountdown_pc : (r.afterCountdown c addr n).pc = r.pc := by
  cases c <;> rfl

theorem afterCountdown_halted : (r.afterCountdown c addr n).halted = r.halted := by
  cases c <;> rfl

theorem afterCountdown_iff1 : (r.afterCountdown c addr n).iff1 = r.iff1 := by
  cases c <;> rfl

theorem reg16_afterCountdown :
    (r.afterCountdown c addr n).reg16 c.pair = r.reg16 c.pair - BitVec.ofNat 16 n := by
  cases c <;> simp [afterCountdown, reg16, Counter.pair, setReg16, setBC, setDE, setHL, bc, de, hl]

theorem afterCountdown_afterCountdown :
    (r.afterCountdown c addr n).afterCountdown c addr 1 = r.afterCountdown c addr (n + 1) := by
  have hleft (w : Word) :
      w - BitVec.ofNat 16 n - BitVec.ofNat 16 1 = w - BitVec.ofNat 16 (n + 1) := by
    bv_omega
  have hrefresh : (refresh (4 * 1) (refresh (4 * n) r)).r = (refresh (4 * (n + 1)) r).r := by
    rw [refresh_refresh, Nat.mul_add, Nat.add_comm]
  simp only [refresh] at hrefresh
  cases c <;>
    simp only [afterCountdown, Counter.pair, reg16, setReg16, setBC, setDE, setHL, bc, de, hl,
      refresh, hrefresh, Word.ofBytes_high_low, hleft]

theorem afterCountdown_iterate :
    (afterCountdown c addr 1)^[n + 1] r = r.afterCountdown c addr (n + 1) := by
  induction n with
  | zero => rfl
  | succ n ih => rw [Function.iterate_succ_apply', ih, afterCountdown_afterCountdown]

end

end Registers

namespace Exec

/-- The stream has a countdown loop that starts at an address. Its closing
branch costs `jump` when it is followed. -/
structure CountsDown (opcodes operands : σ → Word → Byte) (bus : σ) (c : Counter) (addr : Word)
    (jump : Nat) : Prop where
  dec : Spells opcodes operands bus addr (.dec16 c.pair) 0
  test : ∃ x y, c.Halves x y ∧ Spells opcodes operands bus (addr + 1) (.ld .a x) 0 ∧
    Spells opcodes operands bus (addr + 2) (.alu .or (.reg y)) 0
  branch : Spells opcodes operands bus (addr + 3) (.jrIf .nz 0xFB) 1 ∧ jump = 12 ∨
    Spells opcodes operands bus (addr + 3) (.jpIf .nz addr) 2 ∧ jump = 10

variable [Bus σ] [Peripheral δ] {data opcodes operands : σ → Word → Byte}

theorem execute_ld (dst src : Reg8) (m : Machine σ δ) :
    execute (.ld dst src) m = (false, m.onRegs fun r => r.setReg8 dst (r.reg8 src)) := rfl

theorem execute_or (y : Reg8) (m : Machine σ δ) :
    execute (.alu .or (.reg y)) m = (false, m.onRegs (Registers.orred y)) := rfl

theorem execute_dec16 (c : Counter) (m : Machine σ δ) :
    execute (.dec16 c.pair) m = (false, m.onRegs (Registers.lowered c)) := rfl

theorem execute_jrIf {cc : Condition} {m : Machine σ δ} (h : cc.holds m.cpu.regs.f) (d : Byte) :
    execute (.jrIf cc d) m =
      (true, m.onRegs (Registers.jumped (m.cpu.regs.pc + Word.displacement d))) := by
  simp only [execute, branchIf, bind_apply, regs, h, if_true]
  rfl

theorem execute_jpIf {cc : Condition} {m : Machine σ δ} (h : cc.holds m.cpu.regs.f) (addr : Word) :
    execute (.jpIf cc addr) m = (false, m.onRegs (Registers.jumped addr)) := by
  have hstate : m.onRegs (fun r =>
      { r with pc := if cc.holds r.f then addr else r.pc, wz := addr }) =
      m.onRegs (Registers.jumped addr) := by
    refine Machine.onRegs_congr ?_
    rw [h, if_pos rfl]
    rfl
  rw [← hstate]
  rfl

theorem CountsDown.follows {bus : σ} {c : Counter} {addr : Word} {jump : Nat}
    (hloop : CountsDown opcodes operands bus c addr jump) : ∃ i n taken,
      Spells opcodes operands bus (addr + 3) i n ∧ Operation.cost ⟨false, i⟩ taken = jump ∧
      ∀ m : Machine σ δ, m.cpu.regs.pc = addr + 3 + 1 + BitVec.ofNat 16 n →
        m.cpu.regs.f.z = false → execute i m = (taken, m.onRegs (Registers.jumped addr)) := by
  rcases hloop.branch with ⟨hspells, hjump⟩ | ⟨hspells, hjump⟩
  · refine ⟨_, _, true, hspells, hjump.symm, ?_⟩
    intro m hpc hz
    have htarget : m.cpu.regs.pc + Word.displacement 0xFB = addr := by
      rw [hpc, BitVec.add_assoc, BitVec.add_assoc, BitVec.add_assoc]
      exact BitVec.add_zero addr
    rw [execute_jrIf (by simp [Condition.holds, hz]), htarget]
  · refine ⟨_, _, false, hspells, hjump.symm, ?_⟩
    intro m _ hz
    exact execute_jpIf (by simp [Condition.holds, hz]) addr

variable (h : Bus.Static data opcodes operands) {m : Machine σ δ}
include h

theorem runs_test {c : Counter} {addr : Word} {jump : Nat} (hcalm : m.cpu.Calm)
    (hsettled : m.cpu.Settled) (hpc : m.cpu.regs.pc = addr + 1)
    (hloop : CountsDown opcodes operands m.bus c addr jump) : ∃ i g, Runs m 8 i g ∧
      g m.cpu.regs = ((m.cpu.regs.fetched 0).fetched 0).setResult
        (Alu.or (m.cpu.regs.reg16 c.pair).high (m.cpu.regs.reg16 c.pair).low) := by
  obtain ⟨x, y, hhalves, hload, hor⟩ := hloop.test
  have hloaded := (Runs.start hcalm hsettled).next h hpc hload (fun m' _ => execute_ld .a x m')
    (by simp [Registers.setReg8]) (by simp [Registers.setReg8])
  have hpc2 : ((m.cpu.regs.fetched 0).setReg8 .a ((m.cpu.regs.fetched 0).reg8 x)).pc = addr + 2 := by
    simp [Registers.setReg8, hpc, BitVec.add_assoc]
  have hored := hloaded.next h hpc2 hor (fun m' _ => execute_or y m')
    (by simp [Registers.orred, Registers.setResult])
    (by simp [Registers.orred, Registers.setResult])
  have hregs := Registers.orred_ld hhalves (m.cpu.regs.fetched 0)
  rw [Registers.reg16_fetched] at hregs
  exact ⟨_, _, hored, hregs⟩

/-- A round of a countdown, from after its `DEC` to there again. -/
theorem reaches_countdown {c : Counter} {addr : Word} {jump : Nat} (hcalm : m.cpu.Calm)
    (hsettled : m.cpu.Settled) (hpc : m.cpu.regs.pc = addr + 1)
    (hcount : m.cpu.regs.reg16 c.pair ≠ 0)
    (hloop : CountsDown opcodes operands m.bus c addr jump) :
    m.Reaches (Counter.bodyCost + jump) (m.onRegs (Registers.afterCountdown c addr 1)) := by
  obtain ⟨i, g, htest, hg⟩ := runs_test h hcalm hsettled hpc hloop
  obtain ⟨j, n, taken, hbranch, hcost, hfollows⟩ := hloop.follows (δ := δ)
  have hpc3 : (g m.cpu.regs).pc = addr + 3 := by
    simp [hg, Registers.setResult, hpc, BitVec.add_assoc]
  have hz : (g m.cpu.regs).f.z = false := by
    rw [hg]
    exact beq_false_of_ne fun hzero => hcount (Word.high_or_low_eq_zero.mp hzero)
  have hbranched := htest.next h hpc3 hbranch
    (fun m' hregs => hfollows m' (by rw [hregs, Registers.fetched_pc, hpc3])
      (by rw [hregs, Registers.fetched_f, hz]))
    (by simp [Registers.jumped]) (by simp [Registers.jumped])
  obtain ⟨hreach, -⟩ := hbranched.next h (by rfl) hloop.dec
    (fun m' _ => execute_dec16 c m') (by simp) (by simp)
  have hround : (Registers.lowered c ∘ Registers.fetched 0 ∘ Registers.jumped addr ∘
      Registers.fetched n ∘ g) m.cpu.regs = m.cpu.regs.afterCountdown c addr 1 := by
    rw [← Registers.lowered_round c hpc, ← hg, ← Function.comp_assoc (Registers.jumped addr),
      Registers.jumped_fetched]
    rfl
  have hsum : 8 + jump + (Instr.dec16 c.pair).cost = Counter.bodyCost + jump := by
    rw [show (Instr.dec16 c.pair).cost = 6 from rfl, show Counter.bodyCost = 14 from rfl]
    omega
  rwa [Machine.after_settled hsettled rfl, hcost, Operation.cost_false, hsum,
    Machine.onRegs_congr hround] at hreach

/-- Rounds of a countdown in a row, no more than the pair counts. -/
theorem reaches_countdownRounds {c : Counter} {addr : Word} {jump n : Nat} (hcalm : m.cpu.Calm)
    (hsettled : m.cpu.Settled) (hpc : m.cpu.regs.pc = addr + 1)
    (hn : n + 1 ≤ (m.cpu.regs.reg16 c.pair).toNat)
    (hloop : CountsDown opcodes operands m.bus c addr jump) :
    m.Reaches ((n + 1) * (Counter.bodyCost + jump))
      (m.onRegs (Registers.afterCountdown c addr (n + 1))) := by
  -- Every round begins behind the `DEC`, with a pair that still counts at
  -- least as many rounds as there are to go.
  have hreach := Machine.Reaches.iterate (n := n + 1) (m := m)
    (I := fun k m' => m'.bus = m.bus ∧ m'.cpu.Calm ∧ m'.cpu.Settled ∧
      m'.cpu.regs.pc = addr + 1 ∧ k ≤ (m'.cpu.regs.reg16 c.pair).toNat)
    (f := Machine.onRegs (Registers.afterCountdown c addr 1))
    (c := Counter.bodyCost + jump)
    (fun k m' ⟨hbus, hcalm, hsettled, hpc, hk⟩ => by
      have hcount : m'.cpu.regs.reg16 c.pair ≠ 0 := by
        intro hzero
        rw [hzero] at hk
        exact absurd hk (Nat.not_succ_le_zero k)
      refine ⟨reaches_countdown h hcalm hsettled hpc hcount (hbus ▸ hloop), hbus,
        hcalm.modifyRegs (Registers.afterCountdown_halted ..) (Registers.afterCountdown_iff1 ..),
        hsettled.modifyRegs _, ?_, ?_⟩
      · rw [Machine.onRegs_regs, Registers.afterCountdown_pc, hpc]
      · rw [Machine.onRegs_regs, Registers.reg16_afterCountdown]
        bv_omega)
    ⟨rfl, hcalm, hsettled, hpc, hn⟩
  have hstate : m.onRegs (Registers.afterCountdown c addr 1)^[n + 1] =
      m.onRegs (Registers.afterCountdown c addr (n + 1)) :=
    Machine.onRegs_congr (Registers.afterCountdown_iterate c addr n _)
  rwa [Machine.onRegs_iterate, hstate] at hreach

end Exec
end Z80
