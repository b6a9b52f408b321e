import Z80.Bus.Static
import Z80.Proofs.Latches
import Z80.Proofs.Pages

/-!
The repeating block instructions. A round is an instruction of its own, which
goes back to its own opcode as long as there is more to do. So a block is an
iteration of the shortest run, and its time and its end depend only on the
rounds that go back.
-/
namespace Z80

variable {σ δ : Type}

/-- The code of the extended page. -/
def Opcode.repeating : BlockKind → Direction → Byte
  | .copy, .up => 0xB0
  | .search, .up => 0xB1
  | .input, .up => 0xB2
  | .output, .up => 0xB3
  | .copy, .down => 0xB8
  | .search, .down => 0xB9
  | .input, .down => 0xBA
  | .output, .down => 0xBB

theorem Form.ofExtended_repeating (kind : BlockKind) (dir : Direction) :
    ofExtended (Opcode.repeating kind dir) = .fixed (.block kind dir true) := by
  cases kind <;> cases dir <;> rfl

namespace Direction

/-- The address that lies a number of steps ahead. -/
def ahead (n : Nat) (a : Word) : Direction → Word
  | .up => a + BitVec.ofNat 16 n
  | .down => a - BitVec.ofNat 16 n

variable (dir : Direction) (n : Nat) (a : Word)

@[simp] theorem ahead_zero : dir.ahead 0 a = a := by
  cases dir <;> simp [ahead]

theorem ahead_succ : dir.ahead (n + 1) a = dir.ahead n a + dir.step := by
  cases dir <;> simp only [ahead, step, BitVec.ofNat_add] <;> grind

end Direction

/-- A counter that is lowered after each round stands for a number of rounds.
At zero it has wrapped and stands for the most that it can. -/
structure Counts {width : Nat} (w : BitVec width) (n : Nat) : Prop where
  eq : w = BitVec.ofNat width n
  pos : 0 < n
  le : n ≤ 2 ^ width

namespace Counts

variable {width n i : Nat} {w : BitVec width}

theorem wrapping (w : BitVec width) : Counts w (if w = 0 then 2 ^ width else w.toNat) := by
  have hsize : 0 < 2 ^ width := Nat.two_pow_pos width
  split
  · subst w
    refine ⟨BitVec.eq_of_toNat_eq ?_, hsize, Nat.le_refl _⟩
    rw [BitVec.toNat_ofNat, Nat.mod_self]
    rfl
  · rename_i h
    have hne : w.toNat ≠ 0 := fun h0 => h (BitVec.eq_of_toNat_eq h0)
    exact ⟨by simp, Nat.pos_of_ne_zero hne, Nat.le_of_lt w.isLt⟩

theorem sub_ofNat (h : Counts w n) (hi : i ≤ n) :
    w - BitVec.ofNat width i = BitVec.ofNat width (n - i) := by
  have hsum : w = BitVec.ofNat width (n - i) + BitVec.ofNat width i := by
    rw [← BitVec.ofNat_add, Nat.sub_add_cancel hi, h.eq]
  rw [hsum, BitVec.add_sub_cancel]

theorem sub_ne_zero (h : Counts w n) (hi : i < n) :
    (w - BitVec.ofNat width (i + 1) != 0) = decide (i + 1 < n) := by
  have hle := h.le
  have hzero : BitVec.ofNat width (n - (i + 1)) = 0 ↔ n - (i + 1) = 0 := by
    rw [← BitVec.toNat_inj, BitVec.toNat_ofNat, Nat.mod_eq_of_lt (by omega)]
    rfl
  rw [h.sub_ofNat hi, Bool.eq_iff_iff, bne_iff_ne, decide_eq_true_iff, ne_eq, hzero]
  omega

end Counts

/-- One less than what is left. -/
theorem sub_ofNat_sub_one {width : Nat} (w : BitVec width) (i : Nat) :
    w - BitVec.ofNat width i - 1 = w - BitVec.ofNat width (i + 1) := by
  rw [BitVec.ofNat_add]
  grind

namespace Word

/-- The rounds that a counter stands for. A counter of 0 has wrapped. -/
def rounds (w : Word) : Nat :=
  if w = 0 then 0x10000 else w.toNat

theorem counts_rounds (w : Word) : Counts w w.rounds :=
  .wrapping w

theorem sub_ofNat {w : Word} {n : Nat} (h : n ≤ w.rounds) :
    w - BitVec.ofNat 16 n = BitVec.ofNat 16 (w.rounds - n) :=
  w.counts_rounds.sub_ofNat h

end Word

/-- The next round is an instruction. -/
structure Cpu.Ready (cpu : Cpu δ) : Prop where
  boundary : cpu.boundary = .free
  running : cpu.regs.halted = false

/-- The processor runs, and no interrupt can be taken. -/
structure Cpu.Undisturbed (cpu : Cpu δ) : Prop where
  running : cpu.regs.halted = false
  quiet : cpu.interruptPossible = false

theorem Cpu.Undisturbed.ready {cpu : Cpu δ} (h : cpu.Undisturbed) : cpu.Ready where
  boundary :=
    have hcalm : ({ cpu with config := ⟨false⟩ } : Cpu δ).Calm := ⟨rfl, h.running, h.quiet⟩
    hcalm.boundary
  running := h.running

/-- The flags apart from bits 5 and 3. -/
def Flags.documented (f : Flags) : Flags :=
  { f with y := false, x := false }

theorem Flags.documented_inj {f g : Flags} :
    f.documented = g.documented ↔
      f.s = g.s ∧ f.z = g.z ∧ f.h = g.h ∧ f.p = g.p ∧ f.n = g.n ∧ f.c = g.c := by
  simp [documented]

namespace Registers

/-- The registers behind the two opcodes of the extended page. -/
def extended (r : Registers) : Registers :=
  r.start.passed.passed

def endRound (again : Bool) (last next : Flags) (r : Registers) : Registers :=
  if again then
    { r with pc := r.pc - 2, wz := r.pc - 1, f := Block.withCounter (r.pc - 2) next }
  else
    { r with f := last }

section

variable (r : Registers)

@[simp] theorem extended_a : r.extended.a = r.a := by
  cases r
  rfl

@[simp] theorem extended_f : r.extended.f = r.f := by
  cases r
  rfl

@[simp] theorem extended_b : r.extended.b = r.b := by
  cases r
  rfl

@[simp] theorem extended_c : r.extended.c = r.c := by
  cases r
  rfl

@[simp] theorem extended_bc : r.extended.bc = r.bc := by
  cases r
  rfl

@[simp] theorem extended_de : r.extended.de = r.de := by
  cases r
  rfl

@[simp] theorem extended_hl : r.extended.hl = r.hl := by
  cases r
  rfl

@[simp] theorem extended_sp : r.extended.sp = r.sp := by
  cases r
  rfl

theorem extended_eq : r.extended = { refresh 2 r with pc := r.pc + 2, prepc := r.pc } := by
  rw [← refresh_refresh 1 1, ← Word.add_one_one]
  rfl

theorem extended_r : r.extended.r = (refresh 2 r).r := by
  rw [extended_eq]

theorem refresh_r_congr {r s : Registers} (h : r.r = s.r) (n : Nat) :
    (refresh n r).r = (refresh n s).r := by
  simp only [refresh, h]

variable (again : Bool) (last next : Flags)

@[simp] theorem endRound_a : (r.endRound again last next).a = r.a := by
  cases again <;> rfl

@[simp] theorem endRound_r : (r.endRound again last next).r = r.r := by
  cases again <;> rfl

@[simp] theorem endRound_bc : (r.endRound again last next).bc = r.bc := by
  cases again <;> rfl

@[simp] theorem endRound_de : (r.endRound again last next).de = r.de := by
  cases again <;> rfl

@[simp] theorem endRound_hl : (r.endRound again last next).hl = r.hl := by
  cases again <;> rfl

theorem endRound_documented :
    (r.endRound again last last).f.documented = last.documented := by
  cases again <;> rfl

end

end Registers

namespace Exec

variable {α : Type}

/-- The action tells whether it went back to the opcode of its own round. -/
def EndsRound (act : Exec σ δ Bool) : Prop :=
  ∀ m : Machine σ δ, (act m).2.cpu.regs.pc = if (act m).1 then m.cpu.regs.pc - 2 else m.cpu.regs.pc

theorem EndsRound.bind {x : Exec σ δ α} {g : α → Exec σ δ Bool} (hx : Keeps Registers.pc x)
    (hg : ∀ v, EndsRound (g v)) : EndsRound (x >>= g) := by
  intro m
  rw [bind_apply, hg, hx]

theorem EndsRound.endRound (again : Bool) (last next : Flags) :
    EndsRound (endRound again last next : Exec σ δ Bool) := by
  intro m
  cases again <;> rfl

variable [Bus σ]

theorem EndsRound.block (kind : BlockKind) (dir : Direction) (repeats : Bool) :
    EndsRound (block kind dir repeats : Exec σ δ Bool) := by
  cases kind with
  | search =>
      exact .bind .regs fun _ => .bind (.onBus _) fun _ => .bind (.modifyRegs fun _ => rfl) fun _ =>
        .endRound _ _ _
  | copy | input | output =>
      exact .bind .regs fun _ => .bind (.onBus _) fun _ => .bind (.onBus _) fun _ =>
        .bind (.modifyRegs fun _ => rfl) fun _ => .endRound _ _ _

variable [Peripheral δ]

theorem advance_single {m : Machine σ δ} (h : m.cpu.Ready)
    (hcloses : (step m).1.1.instr.closesLoop = false) (remaining : Nat) :
    advance remaining m = ((step m).1.2, (step m).2) := by
  rw [advance_running remaining h.boundary h.running, stepAndSkip_of_not_closesLoop, step_passDelay]
  rwa [step_passDelay]

/-- A code of the extended page without an operand. -/
theorem step_extended {memory : σ → Word → Byte} (h : Bus.Plain memory) {m : Machine σ δ}
    {code : Byte} {i : Instr} (hcode : Form.ofExtended code = .fixed i)
    (hbytes : Holds (memory m.bus) m.cpu.regs.pc [0xED, code]) :
    step m =
      let r := execute i (m.onRegs Registers.extended)
      ((⟨false, i⟩, Operation.cost ⟨false, i⟩ r.1), r.2.onCpu (Cpu.retire i)) := by
  obtain ⟨hpage, hbyte, -⟩ := hbytes
  have hfetch := fetch_extended (m := m.onRegs Registers.start) h hpage
    ((congrArg Form.ofExtended hbyte).trans hcode)
  rw [step_apply, hfetch]
  rfl

theorem step_repeating {memory : σ → Word → Byte} (h : Bus.Plain memory) {m : Machine σ δ}
    {kind : BlockKind} {dir : Direction}
    (hbytes : Holds (memory m.bus) m.cpu.regs.pc [0xED, Opcode.repeating kind dir]) :
    step m =
      let i := .block kind dir true
      let r := block kind dir true (m.onRegs Registers.extended)
      ((⟨false, i⟩, Operation.cost ⟨false, i⟩ r.1), r.2.onCpu (Cpu.retire i)) :=
  step_extended h (Form.ofExtended_repeating kind dir) hbytes

/-- An instruction that leaves the interrupt flip-flops and the chain alone
cannot make an interrupt possible. -/
theorem undisturbed_step {m : Machine σ δ} (h : m.cpu.Undisturbed)
    (hlatches : (step m).2.cpu.regs.latches = m.cpu.regs.latches)
    (hreti : (step m).1.1.instr ≠ .reti) : (step m).2.cpu.Undisturbed where
  running := (congrArg Latches.halted hlatches).trans h.running
  quiet := by
    have hframe := step_frame m
    rw [if_neg hreti] at hframe
    have hiff1 : (step m).2.cpu.regs.iff1 = m.cpu.regs.iff1 := congrArg Latches.iff1 hlatches
    calc (step m).2.cpu.interruptPossible
        = ((m.cpu.around (step m).2.cpu).retire (step m).1.1.instr).interruptPossible :=
          congrArg Cpu.interruptPossible hframe
      _ = (m.cpu.nmiPending || ((step m).2.cpu.regs.iff1 && m.cpu.irqRequested)) := rfl
      _ = m.cpu.interruptPossible := by
          rw [hiff1]
          rfl
      _ = false := h.quiet

end Exec

namespace Machine

variable [Bus σ] [Peripheral δ]

/-- The machine at the next boundary: the shortest run. -/
def next (m : Machine σ δ) : Machine σ δ :=
  (m.run 1).2

variable {m : Machine σ δ}

/-- What comes next takes the same T-states in every run. -/
theorem next_uniform {r : Nat × Machine σ δ} (h : ∀ remaining, Exec.advance remaining m = r) :
    m.next = r.2.elapse r.1 := by
  have hcost := Exec.four_le_advance Nat.one_pos m
  rw [h] at hcost
  calc m.next = (r.2.elapse r.1).runFor (1 - r.1) := by
        change m.runFor 1 = _
        rw [runFor_of_pos Nat.one_pos, h]
    _ = r.2.elapse r.1 := by rw [Nat.sub_eq_zero_of_le (by omega), runFor_zero]

theorem runFor_uniform {r : Nat × Machine σ δ} (h : ∀ remaining, Exec.advance remaining m = r)
    {remaining : Nat} (hpos : 0 < remaining) :
    m.runFor remaining = m.next.runFor (remaining - r.1) := by
  rw [runFor_of_pos hpos, h, next_uniform h]

/-- The T-states of a round of a block instruction, which goes back or not. -/
def roundCost (again : Bool) : Nat :=
  if again then 21 else 16

theorem cost_repeating (kind : BlockKind) (dir : Direction) (again : Bool) :
    Operation.cost ⟨false, .block kind dir true⟩ again = roundCost again := by
  cases again <;> rfl

/-- What comes next is a round of a block instruction, which goes back to its
own opcode or is the last one. -/
structure BlockRound (again : Bool) (m : Machine σ δ) : Prop where
  runFor {remaining : Nat} (h : 0 < remaining) :
    m.runFor remaining = m.next.runFor (remaining - roundCost again)
  pc : m.next.cpu.regs.pc = if again then m.cpu.regs.pc else m.cpu.regs.pc + 2
  total : m.next.cpu.total = m.cpu.total + roundCost again

/-- The next round of a block instruction that stands at the program counter. -/
theorem next_repeating {memory : σ → Word → Byte} (h : Bus.Plain memory) {kind : BlockKind}
    {dir : Direction} (hm : m.cpu.Undisturbed)
    (hbytes : Holds (memory m.bus) m.cpu.regs.pc [0xED, Opcode.repeating kind dir]) :
    let r := Exec.block kind dir true (m.onRegs Registers.extended)
    BlockRound r.1 m ∧ m.next.cpu.Undisturbed ∧ m.next.cpu.regs = r.2.cpu.regs ∧
      m.next.bus = r.2.bus := by
  intro r
  have hstep := Exec.step_repeating h hbytes
  have hop : (Exec.step m).1.1.instr = .block kind dir true := by rw [hstep]
  have hcost : (Exec.step m).1.2 = roundCost r.1 := by
    rw [hstep]
    exact cost_repeating kind dir _
  have hcloses : (Exec.step m).1.1.instr.closesLoop = false := by
    rw [hop]
    rfl
  have hlatches : (Exec.step m).2.cpu.regs.latches = m.cpu.regs.latches := by
    rw [Exec.step_latches, hop]
    rfl
  have hsingle := Exec.advance_single hm.ready hcloses
  have hnext := next_uniform hsingle
  have hregs : m.next.cpu.regs = r.2.cpu.regs := by
    rw [hnext, hstep]
    rfl
  have htotal := Exec.advance_total 1 m
  rw [hsingle] at htotal
  have hundisturbed := Exec.undisturbed_step hm hlatches (by rw [hop]; exact Instr.noConfusion)
  refine ⟨⟨fun hpos => ?_, ?_, ?_⟩, ?_, hregs, ?_⟩
  · rw [runFor_uniform hsingle hpos, hcost]
  · have hpc : m.cpu.regs.extended.pc = m.cpu.regs.pc + 2 := Word.add_one_one _
    have hback : m.cpu.regs.pc + 2 - 2 = m.cpu.regs.pc := BitVec.add_sub_cancel ..
    have hends := Exec.EndsRound.block kind dir true (m.onRegs Registers.extended)
    rw [onRegs_regs, hpc, hback] at hends
    exact (congrArg Registers.pc hregs).trans hends
  · rw [hnext, elapse_total, htotal, hcost]
  · rw [hnext]
    exact ⟨hundisturbed.running, hundisturbed.quiet⟩
  · rw [hnext, hstep]
    rfl

/-- A block instruction is passed after a number of rounds, and in the time of
as many rounds. -/
structure Passes (n : Nat) (m : Machine σ δ) : Prop where
  stays (j : Nat) (h : j < n) : (next^[j] m).cpu.regs.pc = m.cpu.regs.pc
  pc : (next^[n] m).cpu.regs.pc = m.cpu.regs.pc + 2
  total : (next^[n] m).cpu.total = m.cpu.total + (21 * (n - 1) + 16)
  /-- A run of that time or more goes through the same rounds. -/
  runFor (extra : Nat) : m.runFor (21 * (n - 1) + 16 + extra) = (next^[n] m).runFor extra

/-- Rounds that go back, and one that does not, pass the instruction. -/
theorem Passes.of_rounds {n : Nat} (hpos : 0 < n)
    (h : ∀ j < n, BlockRound (j + 1 < n) (next^[j] m)) : m.Passes n := by
  obtain ⟨k, rfl⟩ : ∃ k, n = k + 1 := Nat.exists_eq_add_of_lt hpos |>.imp fun _ hk => by omega
  have hbefore (extra j : Nat) (hj : j ≤ k) :
      (next^[j] m).cpu.regs.pc = m.cpu.regs.pc ∧ (next^[j] m).cpu.total = m.cpu.total + 21 * j ∧
      m.runFor (21 * k + 16 + extra) = (next^[j] m).runFor (21 * (k - j) + 16 + extra) := by
    induction j with
    | zero => exact ⟨rfl, rfl, rfl⟩
    | succ j ih =>
        obtain ⟨hpc, htotal, hrun⟩ := ih (by omega)
        have hround := h j (by omega)
        rw [decide_eq_true (by omega)] at hround
        have hleft : 21 * (k - j) + 16 + extra - roundCost true =
            21 * (k - (j + 1)) + 16 + extra := by
          have hcost : roundCost true = 21 := rfl
          omega
        rw [Function.iterate_succ_apply', hround.pc, hround.total, hpc, htotal, hrun,
          hround.runFor (by omega), hleft]
        exact ⟨rfl, rfl, rfl⟩
  have hlast := h k (by omega)
  rw [decide_eq_false (by omega)] at hlast
  have hend : next^[k + 1] m = (next^[k] m).next := Function.iterate_succ_apply' next k m
  obtain ⟨hpc, htotal, -⟩ := hbefore 0 k (by omega)
  refine ⟨fun j hj => (hbefore 0 j (by omega)).1, ?_, ?_, fun extra => ?_⟩
  · rw [hend, hlast.pc, hpc]
    rfl
  · rw [hend, hlast.total, htotal]
    rfl
  · obtain ⟨-, -, hrun⟩ := hbefore extra k (by omega)
    have hleft : 21 * (k - k) + 16 + extra - roundCost false = extra := by
      have hcost : roundCost false = 16 := rfl
      omega
    rw [hend, Nat.add_sub_cancel, hrun, hlast.runFor (by omega), hleft]

/-- What every round keeps up holds at the end. -/
theorem passes_of_invariant {I : Nat → Machine σ δ → Prop} {n : Nat} (hpos : 0 < n) (h : I 0 m)
    (hround : ∀ j m', j < n → I j m' → BlockRound (j + 1 < n) m' ∧ I (j + 1) m'.next) :
    m.Passes n ∧ I n (next^[n] m) := by
  have hinvariant (j : Nat) (hj : j ≤ n) : I j (next^[j] m) := by
    induction j with
    | zero => exact h
    | succ j ih =>
        rw [Function.iterate_succ_apply']
        exact (hround j _ hj (ih (by omega))).2
  have hrounds (j : Nat) (hj : j < n) := (hround j _ hj (hinvariant j (by omega))).1
  exact ⟨.of_rounds hpos hrounds, hinvariant n (by omega)⟩

end Machine
end Z80
