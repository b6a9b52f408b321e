import Z80.Daisy.StateLatch
import Z80.Proofs.Blocks
import Z80.Proofs.Rounds

/-!
Runs of index prefixes. A prefix in front of another one is an instruction
that does nothing, so a row of prefixes is passed one by one, and only the last
of them counts. An interrupt can be taken in front of each.
-/
namespace Z80

variable {σ δ : Type}

namespace Cpu

/-- The processor with other marks of the last instruction, which the next one
sets anew. -/
def remarked (prepc : Word) (afterLdAIR : Bool) (cpu : Cpu δ) : Cpu δ :=
  { cpu with regs := { cpu.regs with prepc }, afterLdAIR }

theorem Undisturbed.remarked {cpu : Cpu δ} (h : cpu.Undisturbed) (prepc : Word)
    (afterLdAIR : Bool) : (cpu.remarked prepc afterLdAIR).Undisturbed := by
  cases cpu
  exact ⟨h.running, h.quiet⟩

theorem Undisturbed.nmiPending {cpu : Cpu δ} (h : cpu.Undisturbed) : cpu.nmiPending = false :=
  (Bool.or_eq_false_iff.mp h.quiet).1

end Cpu

namespace Machine

/-- What a prefix in front of another one does. `Registers.refresh_r_toNat` gives
the refresh counter as a number, here and below. -/
def supersede (m : Machine σ δ) : Machine σ δ :=
  ⟨{ m.cpu with
      regs := { Registers.refresh 1 m.cpu.regs with
        pc := m.cpu.regs.pc + 1, prepc := m.cpu.regs.pc }
      q := {}
      afterLdAIR := false
      total := m.cpu.total + 4 }, m.bus⟩

/-- The machine in front of the last of some prefixes, as if the `n` before it
were not there. They count as refreshes, and no flags were written last. -/
def inFrontOf (n : Nat) (m : Machine σ δ) : Machine σ δ :=
  ⟨{ m.cpu with
      regs := { Registers.refresh n m.cpu.regs with
        pc := m.cpu.regs.pc + BitVec.ofNat 16 n }
      q := if n = 0 then m.cpu.q else {} }, m.bus⟩

section

variable (n : Nat) (m : Machine σ δ)

@[simp] theorem supersede_pc : m.supersede.cpu.regs.pc = m.cpu.regs.pc + 1 := by
  cases m
  rfl

@[simp] theorem supersede_eiDelay : m.supersede.cpu.eiDelay = m.cpu.eiDelay := by
  cases m
  rfl

@[simp] theorem supersede_bus : m.supersede.bus = m.bus := by
  cases m
  rfl

theorem supersede_eq (h : m.cpu.eiDelay = false) :
    m.supersede = (m.onCpu (Cpu.after .nop (Registers.passed ∘ Registers.start))).elapse 4 := by
  simp only [supersede, h, onCpu, elapse, Cpu.after, Cpu.modifyRegs, Cpu.retire,
    Function.comp_apply, Registers.passed, Registers.start, Registers.refresh]
  rfl

@[simp] theorem inFrontOf_pc :
    (m.inFrontOf n).cpu.regs.pc = m.cpu.regs.pc + BitVec.ofNat 16 n := by
  cases m
  rfl

@[simp] theorem inFrontOf_bus : (m.inFrontOf n).bus = m.bus := by
  cases m
  rfl

variable {m}

theorem undisturbed_supersede (h : m.cpu.Undisturbed) : m.supersede.cpu.Undisturbed := by
  cases m
  exact ⟨h.running, h.quiet⟩

theorem undisturbed_inFrontOf (h : m.cpu.Undisturbed) : (m.inFrontOf n).cpu.Undisturbed := by
  cases m
  exact ⟨h.running, h.quiet⟩

/-- What holds in front of every prefix of a row. -/
theorem supersede_iterate_keeps (hm : m.cpu.Undisturbed) (hdelay : m.cpu.eiDelay = false) :
    (supersede^[n] m).cpu.Undisturbed ∧ (supersede^[n] m).cpu.eiDelay = false ∧
      (supersede^[n] m).cpu.regs.pc = m.cpu.regs.pc + BitVec.ofNat 16 n ∧
      (supersede^[n] m).bus = m.bus := by
  induction n with
  | zero => exact ⟨hm, hdelay, (BitVec.add_zero _).symm, rfl⟩
  | succ n ih =>
      obtain ⟨hundisturbed, heiDelay, hpc, hbus⟩ := ih
      rw [Function.iterate_succ_apply', supersede_pc, supersede_eiDelay, supersede_bus, hpc, hbus,
        heiDelay, Word.add_ofNat_succ]
      exact ⟨undisturbed_supersede hundisturbed, rfl, rfl, rfl⟩

end

/-- A row of prefixes only leads to the last one, but for the time and for what
the next instruction sets anew. -/
theorem supersede_iterate (n : Nat) (m : Machine σ δ) : ∃ prepc afterLdAIR,
    supersede^[n] m = ((m.inFrontOf n).onCpu (Cpu.remarked prepc afterLdAIR)).elapse (4 * n) := by
  induction n with
  | zero =>
      refine ⟨m.cpu.regs.prepc, m.cpu.afterLdAIR, ?_⟩
      simp [inFrontOf, onCpu, elapse, Cpu.remarked]
  | succ n ih =>
      obtain ⟨prepc, afterLdAIR, h⟩ := ih
      have hr := congrArg Registers.r (Registers.refresh_refresh n 1 m.cpu.regs)
      refine ⟨m.cpu.regs.pc + BitVec.ofNat 16 n, false, ?_⟩
      rw [Function.iterate_succ_apply', h]
      simp only [Registers.refresh] at hr
      simp only [supersede, inFrontOf, onCpu, elapse, Cpu.remarked, Registers.refresh, hr,
        BitVec.ofNat_add, BitVec.add_assoc, Nat.succ_ne_zero, if_false, Nat.mul_succ,
        Nat.add_assoc]
      rfl

end Machine

namespace Exec

variable [Bus σ] [Peripheral δ]

theorem step_remarked (prepc : Word) (afterLdAIR : Bool) (m : Machine σ δ) :
    step (m.onCpu (Cpu.remarked prepc afterLdAIR)) = step m := by
  have h : Cpu.Outer fun cpu : Cpu δ => { cpu with afterLdAIR } :=
    ⟨fun _ => rfl, fun _ _ => rfl⟩
  exact step_outer h (fun _ => rfl) (fun _ => rfl) (fun _ _ => rfl) m

variable {opcodes : σ → Word → Byte} (h : ∀ a s, Bus.fetchOpcode a s = (opcodes s a, s))
include h

theorem step_superseded {m : Machine σ δ}
    (hfirst : opcodes m.bus m.cpu.regs.pc ∈ Opcode.prefixes)
    (hsecond : opcodes m.bus (m.cpu.regs.pc + 1) ∈ Opcode.prefixes) :
    step m = ((⟨false, .nop⟩, 4),
      m.onCpu (Cpu.after .nop (Registers.passed ∘ Registers.start))) := by
  obtain ⟨p, hp⟩ := Opcode.exists_indexes hfirst
  obtain ⟨q, hq⟩ := Opcode.exists_indexes hsecond
  have hfetch : fetch (m.onRegs Registers.start) =
      (⟨false, .nop⟩, m.onRegs (Registers.passed ∘ Registers.start)) := by
    have hpc : m.cpu.regs.start.pc = m.cpu.regs.pc := rfl
    simp only [fetch, bind_apply, fetchOpcode_pure h, Machine.onRegs_regs, Machine.onRegs_bus,
      hpc, hp.decode, fetchIndexed, peekOpcode_pure h, Registers.passed_pc, hq.decode, pure_apply,
      Machine.onRegs_onRegs, Function.comp_apply]
  have hnop (k : Machine σ δ) : execute .nop k = (false, k) := rfl
  rw [step_apply, hfetch]
  simp only [hnop, Machine.onRegs_retire, Operation.cost_false]
  rfl

theorem step_indexed {m : Machine σ δ}
    (hfirst : opcodes m.bus m.cpu.regs.pc ∈ Opcode.prefixes)
    (hsecond : opcodes m.bus (m.cpu.regs.pc + 1) ∉ Opcode.prefixes) :
    (step m).1.1.indexed = true := by
  obtain ⟨p, hp⟩ := Opcode.exists_indexes hfirst
  have hpc : m.cpu.regs.start.pc = m.cpu.regs.pc := rfl
  have hop : (step m).1.1 = (fetchIndexed p (m.onRegs (Registers.passed ∘ Registers.start))).1 := by
    rw [step_apply]
    simp only [fetch, bind_apply, fetchOpcode_pure h, Machine.onRegs_regs, Machine.onRegs_bus,
      hpc, hp.decode, Machine.onRegs_onRegs]
  rw [hop]
  simp only [fetchIndexed, bind_apply, peekOpcode_pure h, Machine.onRegs_regs,
    Machine.onRegs_bus, Function.comp_apply, Registers.passed_pc, hpc]
  cases hcode : Opcode.decode p (opcodes m.bus (m.cpu.regs.pc + 1)) with
  | index q => exact absurd (Opcode.indexes_of_decode hcode).mem_prefixes hsecond
  | instr form => rfl
  | bits => rfl
  | extended => rfl

end Exec

namespace Machine

variable [Bus σ] [Peripheral δ]

/-- Machines that step alike go on alike. -/
theorem runFor_congr {m k : Machine σ δ} (hm : m.cpu.Ready) (hk : k.cpu.Ready)
    (h : Exec.step m = Exec.step k) {remaining : Nat} (hpos : 0 < remaining) :
    m.runFor remaining = k.runFor remaining := by
  have hadvance : Exec.advance remaining m = Exec.advance remaining k := by
    rw [Exec.advance_running remaining hm.boundary hm.running,
      Exec.advance_running remaining hk.boundary hk.running, Exec.stepAndSkip_apply,
      Exec.stepAndSkip_apply, Exec.step_passDelay, Exec.step_passDelay, h]
  rw [runFor_of_pos hpos, runFor_of_pos hpos, hadvance]

variable {opcodes : σ → Word → Byte} {m : Machine σ δ}

theorem step_supersede (n : Nat) (m : Machine σ δ) :
    Exec.step (supersede^[n] m) =
      ((Exec.step (m.inFrontOf n)).1, (Exec.step (m.inFrontOf n)).2.elapse (4 * n)) := by
  obtain ⟨prepc, afterLdAIR, hrow⟩ := supersede_iterate n m
  have hcommutes := Exec.Commutes.step id (· + 4 * n)
    ((m.inFrontOf n).onCpu (Cpu.remarked prepc afterLdAIR))
  rw [hrow, elapse_eq, hcommutes, Exec.step_remarked]
  rfl

theorem runFor_supersede (hm : m.cpu.Undisturbed) (n : Nat) {extra : Nat} (hpos : 0 < extra) :
    (supersede^[n] m).runFor extra = ((m.inFrontOf n).runFor extra).elapse (4 * n) := by
  obtain ⟨prepc, afterLdAIR, hrow⟩ := supersede_iterate n m
  have hlast := undisturbed_inFrontOf n hm
  have hmarked : ((m.inFrontOf n).onCpu (Cpu.remarked prepc afterLdAIR)).cpu.Undisturbed :=
    hlast.remarked prepc afterLdAIR
  rw [hrow, runFor_elapse,
    runFor_congr hmarked.ready hlast.ready (Exec.step_remarked prepc afterLdAIR _) hpos]

section

variable (h : ∀ a s, Bus.fetchOpcode a s = (opcodes s a, s))
include h

theorem next_superseded (hm : m.cpu.Undisturbed) (hdelay : m.cpu.eiDelay = false)
    (hfirst : opcodes m.bus m.cpu.regs.pc ∈ Opcode.prefixes)
    (hsecond : opcodes m.bus (m.cpu.regs.pc + 1) ∈ Opcode.prefixes) :
    m.next = m.supersede ∧ ∀ extra, m.runFor (4 + extra) = m.next.runFor extra := by
  have hstep := Exec.step_superseded h hfirst hsecond
  have hcloses : (Exec.step m).1.1.instr.closesLoop = false := by
    rw [hstep]
    rfl
  have hsingle := Exec.advance_single hm.ready hcloses
  refine ⟨?_, fun extra => ?_⟩
  · rw [next_uniform hsingle, hstep, supersede_eq m hdelay]
  · rw [runFor_uniform hsingle (by omega), hstep, Nat.add_sub_cancel_left]

/-- The first prefixes of a row are passed one by one. -/
theorem next_iterate_superseded (hm : m.cpu.Undisturbed) (hdelay : m.cpu.eiDelay = false) {n : Nat}
    (hprefixes : ∀ j ≤ n, opcodes m.bus (m.cpu.regs.pc + BitVec.ofNat 16 j) ∈ Opcode.prefixes)
    (j : Nat) (hj : j ≤ n) :
    next^[j] m = supersede^[j] m ∧
      ∀ extra, m.runFor (4 * j + extra) = (next^[j] m).runFor extra := by
  induction j with
  | zero =>
      refine ⟨rfl, fun extra => ?_⟩
      rw [Nat.mul_zero, Nat.zero_add]
      rfl
  | succ j ih =>
      obtain ⟨hrow, hrun⟩ := ih (by omega)
      obtain ⟨hundisturbed, heiDelay, hpc, hbus⟩ := supersede_iterate_keeps j hm hdelay
      rw [← hrow] at hundisturbed heiDelay hpc hbus
      have hfirst : opcodes (next^[j] m).bus (next^[j] m).cpu.regs.pc ∈ Opcode.prefixes := by
        rw [hbus, hpc]
        exact hprefixes j (by omega)
      have hsecond : opcodes (next^[j] m).bus ((next^[j] m).cpu.regs.pc + 1) ∈
          Opcode.prefixes := by
        rw [hbus, hpc, ← Word.add_ofNat_succ]
        exact hprefixes (j + 1) hj
      obtain ⟨hnext, hgoes⟩ := next_superseded h hundisturbed heiDelay hfirst hsecond
      rw [Function.iterate_succ_apply', Function.iterate_succ_apply', hnext, hrow]
      refine ⟨rfl, fun extra => ?_⟩
      rw [← hrow, ← hnext, ← hgoes, ← hrun]
      congr 1
      omega

/-- A row of `n + 1` prefixes. Each of the first `n` takes four T-states and
does nothing but to be passed. The last one then acts on what follows as if it
stood there alone. In front of each a new edge of the NMI line is served, and so
is a new request that is enabled, whether on the line or from a chain. -/
theorem prefixes_pass (hm : m.cpu.Undisturbed) (hdelay : m.cpu.eiDelay = false) {n : Nat}
    (hprefixes : ∀ j ≤ n, opcodes m.bus (m.cpu.regs.pc + BitVec.ofNat 16 j) ∈ Opcode.prefixes) :
    (∀ j ≤ n, next^[j] m = supersede^[j] m ∧
      ∀ extra, m.runFor (4 * j + extra) = (next^[j] m).runFor extra) ∧
    (opcodes m.bus (m.cpu.regs.pc + BitVec.ofNat 16 (n + 1)) ∉ Opcode.prefixes →
      let alone := m.inFrontOf n
      (Exec.step alone).1.1.indexed = true ∧ Exec.step (next^[n] m) =
        ((Exec.step alone).1, (Exec.step alone).2.elapse (4 * n)) ∧
      ∀ extra, 0 < extra →
        (next^[n] m).runFor extra = (alone.runFor extra).elapse (4 * n)) ∧
    ∀ j ≤ n, ∀ remaining, let now := next^[j] m
      (∀ s : LineState, now.cpu.nmiLine = .clear → s.isActive = true →
        let raised : Machine σ δ := ⟨now.cpu.setNmiLine s, now.bus⟩
        Exec.advance remaining raised = Exec.takeNmi raised) ∧
      ∀ chain (s : LineState),
        let raised : Machine σ δ := ⟨({ now.cpu with chain }).setIrqLine s, now.bus⟩
        raised.cpu.regs.iff1 = true → raised.cpu.irqRequested = true →
        Exec.advance remaining raised = Exec.takeIrq raised := by
  have hpassed := next_iterate_superseded h hm hdelay hprefixes
  refine ⟨hpassed, fun hnext => ?_, fun j hj remaining => ?_⟩
  · intro alone
    have hlast := hprefixes n (Nat.le_refl n)
    rw [← inFrontOf_pc, ← inFrontOf_bus n m] at hlast
    rw [Word.add_ofNat_succ, ← inFrontOf_pc, ← inFrontOf_bus n m] at hnext
    refine ⟨Exec.step_indexed h hlast hnext, ?_, fun extra hpos => ?_⟩
    · rw [(hpassed n (Nat.le_refl n)).1, step_supersede]
    · rw [(hpassed n (Nat.le_refl n)).1, runFor_supersede hm n hpos]
  · intro now
    obtain ⟨hundisturbed, hdelay', -⟩ := supersede_iterate_keeps j hm hdelay
    rw [← (hpassed j hj).1] at hundisturbed hdelay'
    refine ⟨fun s hclear hs => ?_, fun chain s => ?_⟩
    · intro raised
      refine Exec.advance_nmi remaining (Cpu.boundary_eq_nmi.mpr ⟨hdelay', ?_⟩)
      simp [raised, Cpu.setNmiLine, hclear, hs]
    · intro raised hiff1 hrequested
      exact Exec.advance_irq remaining
        (Cpu.boundary_eq_irq.mpr ⟨hdelay', hundisturbed.nmiPending, hiff1, hrequested⟩)

end

/-- `DD FD DD 23`, with an edge of the NMI line after the first byte. -/
theorem prefixes_pass_mixed :
    let m : Machine Bus.Flat StateLatch := ⟨{}, Bus.Flat.load 0 [0xDD, 0xFD, 0xDD, 0x23] {}⟩
    let raised : Machine Bus.Flat StateLatch :=
      ⟨(next^[1] m).cpu.setNmiLine .assert, (next^[1] m).bus⟩
    m.cpu.Undisturbed ∧ m.cpu.eiDelay = false ∧
    (∀ j ≤ 2, m.bus.peek (m.cpu.regs.pc + BitVec.ofNat 16 j) ∈ Opcode.prefixes) ∧
    m.bus.peek (m.cpu.regs.pc + BitVec.ofNat 16 3) ∉ Opcode.prefixes ∧
    (next^[2] m).cpu.regs.pc = 2 ∧ (next^[2] m).cpu.total = 8 ∧
    (Exec.step (m.inFrontOf 2)).1.1.indexed = true ∧
    Exec.advance 1 raised = Exec.takeNmi raised := by
  intro m raised
  have hm : m.cpu.Undisturbed := ⟨rfl, rfl⟩
  have hprefixes : ∀ j ≤ 2, m.bus.peek (m.cpu.regs.pc + BitVec.ofNat 16 j) ∈ Opcode.prefixes := by
    decide +kernel
  have hlast : m.bus.peek (m.cpu.regs.pc + BitVec.ofNat 16 3) ∉ Opcode.prefixes := by
    decide +kernel
  obtain ⟨hpassed, halone, hraised⟩ :=
    prefixes_pass Bus.Flat.plain.fetchOpcode_eq hm rfl hprefixes
  have htwo : next^[2] m = supersede^[2] m := (hpassed 2 (Nat.le_refl 2)).1
  have hone : next^[1] m = supersede^[1] m := (hpassed 1 (by decide)).1
  refine ⟨hm, rfl, hprefixes, hlast, ?_, ?_, (halone hlast).1, ?_⟩
  · rw [htwo]
    decide +kernel
  · rw [htwo]
    decide +kernel
  · refine (hraised 1 (by decide) 1).1 .assert ?_ rfl
    rw [hone]
    rfl

end Machine
end Z80
