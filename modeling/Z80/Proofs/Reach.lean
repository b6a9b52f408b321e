import Mathlib.Logic.Function.Iterate
import Z80.Proofs.Accounting
import Z80.Proofs.Boundary

/-!
Runs in stretches. One machine reaches another at a cost when every run that
lasts that long goes on from the other one with the rest of its budget. An
instruction is such a stretch as long as the processor is calm: it runs, no
interrupt is possible and no loop is skipped.
-/
namespace Z80

variable {σ δ : Type}

/-- The processor runs instructions one by one and no interrupt is near. -/
structure Cpu.Calm (cpu : Cpu δ) : Prop where
  literal : cpu.config.loopAcceleration = false
  running : cpu.regs.halted = false
  quiet : cpu.interruptPossible = false

theorem Cpu.Calm.boundary {cpu : Cpu δ} (h : cpu.Calm) : cpu.boundary = .free := by
  have hquiet := h.quiet
  simp only [interruptPossible, Bool.or_eq_false_iff] at hquiet
  simp [Cpu.boundary, hquiet.1, hquiet.2]

namespace Exec

variable [Bus σ]

theorem accelerate_literal (op : Operation) (remaining : Nat) {m : Machine σ δ}
    (h : m.cpu.config.loopAcceleration = false) : accelerate op remaining m = (0, m) := by
  have hcannot : m.cpu.canAccelerate remaining = false := by simp [Cpu.canAccelerate, h]
  change (if m.cpu.canAccelerate remaining then _ else _ : Exec σ δ Nat) m = _
  rw [hcannot]
  rfl

variable [Peripheral δ]

/-- A step does not look at what it sets anew outside the registers. -/
theorem step_outer {φ : Cpu δ → Cpu δ} (h : Cpu.Outer φ) (hq : ∀ cpu, (φ cpu).q = cpu.q)
    (hreti : ∀ cpu, φ cpu.retiChain = (φ cpu).retiChain)
    (hretire : ∀ i cpu, (φ cpu).retire i = cpu.retire i) (m : Machine σ δ) :
    step (m.onCpu φ) = step m := by
  have hstart : (m.onCpu φ).onRegs Registers.start = (m.onRegs Registers.start).onCpu φ :=
    congrArg (Machine.mk · m.bus) (h.modifyRegs Registers.start m.cpu).symm
  have hfetch := Commutes.fetch h (m.onRegs Registers.start)
  have hexecute (i : Instr) (m : Machine σ δ) :=
    Commutes.execute h i (fun _ => hq) (fun _ => hreti) m
  have hafter (i : Instr) (m : Machine σ δ) :
      (m.onCpu φ).onCpu (Cpu.retire i) = m.onCpu (Cpu.retire i) :=
    congrArg (Machine.mk · m.bus) (hretire i m.cpu)
  rw [step_apply, step_apply]
  simp only [hstart, hfetch, hexecute, hafter]

theorem step_passDelay (m : Machine σ δ) : step (m.onCpu Cpu.passDelay) = step m := by
  have h : Cpu.Outer (Cpu.passDelay : Cpu δ → Cpu δ) := ⟨fun _ => rfl, fun _ _ => rfl⟩
  exact step_outer h (fun _ => rfl) (fun _ => rfl) (fun _ _ => rfl) m

/-- Without acceleration a step is the instruction alone. -/
theorem stepAndSkip_of_literal {m : Machine σ δ} (h : m.cpu.config.loopAcceleration = false)
    (remaining : Nat) : stepAndSkip remaining m = ((step m).1.2, (step m).2) := by
  have hafter : (step m).2.cpu.config.loopAcceleration = false := by
    rw [step_config, h]
  simp only [stepAndSkip_apply, accelerate_literal _ _ hafter, Nat.add_zero]

theorem advance_step (remaining : Nat) {m : Machine σ δ} (hboundary : m.cpu.boundary = .free)
    (hrunning : m.cpu.regs.halted = false) (h : m.cpu.config.loopAcceleration = false) :
    advance remaining m = ((step m).1.2, (step m).2) := by
  rw [advance_running remaining hboundary hrunning,
    stepAndSkip_of_literal (m := m.onCpu Cpu.passDelay) h, step_passDelay]

end Exec

namespace Machine

theorem elapse_eq (n : Nat) (m : Machine σ δ) :
    m.elapse n = m.onCpu (Cpu.relabel id (· + n)) := rfl

theorem elapse_elapse (a b : Nat) (m : Machine σ δ) :
    (m.elapse a).elapse b = m.elapse (a + b) := by
  simp only [elapse, Nat.add_assoc]

variable [Bus σ] [Peripheral δ]

theorem runFor_elapse (k remaining : Nat) (m : Machine σ δ) :
    (m.elapse k).runFor remaining = (m.runFor remaining).elapse k := by
  induction remaining, m using runFor_induction with
  | done m => simp only [runFor_zero]
  | round remaining m hpos ih =>
      have hcommutes := Exec.Commutes.advance (· + k) remaining m
      rw [runFor_of_pos hpos, runFor_of_pos hpos, elapse_eq, hcommutes]
      simp only [← elapse_eq]
      rw [elapse_elapse, Nat.add_comm k, ← elapse_elapse, ih]

/-- Whatever has time for the stretch from one machine to the other goes on
from there. -/
def Reaches (m : Machine σ δ) (cost : Nat) (n : Machine σ δ) : Prop :=
  ∀ remaining, cost ≤ remaining →
    m.runFor remaining = (n.elapse cost).runFor (remaining - cost)

theorem Reaches.refl (m : Machine σ δ) : Reaches m 0 m :=
  fun _ _ => rfl

theorem Reaches.trans {m n p : Machine σ δ} {a b : Nat} (hmn : Reaches m a n)
    (hnp : Reaches n b p) : Reaches m (a + b) p := by
  intro remaining hle
  rw [hmn remaining (by omega), runFor_elapse, hnp _ (by omega), ← runFor_elapse,
    elapse_elapse, Nat.add_comm b, Nat.sub_sub]

theorem Reaches.step {m : Machine σ δ} (h : m.cpu.Calm) :
    Reaches m (Exec.step m).1.2 (Exec.step m).2 := by
  intro remaining hle
  have hcost : 4 ≤ (Exec.step m).1.2 := Operation.four_le_cost _ _
  have hpos : 0 < remaining := by omega
  rw [runFor_of_pos hpos, Exec.advance_step remaining h.boundary h.running h.literal]

/-- Rounds of equal cost, as long as an invariant with a count lasts. -/
theorem Reaches.iterate {f : Machine σ δ → Machine σ δ} {c : Nat}
    {I : Nat → Machine σ δ → Prop}
    (hround : ∀ k m, I (k + 1) m → Reaches m c (f m) ∧ I k (f m))
    {n : Nat} {m : Machine σ δ} (h : I n m) : Reaches m (n * c) (f^[n] m) := by
  induction n generalizing m with
  | zero =>
      rw [Nat.zero_mul]
      exact .refl m
  | succ n ih =>
      obtain ⟨hreach, hrest⟩ := hround n m h
      rw [Nat.succ_mul, Nat.add_comm, Function.iterate_succ_apply]
      exact hreach.trans (ih hrest)

end Machine
end Z80
