import Z80.Proofs.Latches

/-!
The rounds of a run by kind: an interrupt of either sort, what is left of a
halt, or an instruction with the rounds of a loop that it skips. For each kind
there is one statement of when it happens and what it does outside the
registers that instructions compute with.
-/
namespace Z80

variable {σ δ : Type}

inductive Round
  | nmi
  | irq
  | halt
  /-- An instruction. The rounds of a loop that it skips end with the same
  instruction again. -/
  | instr (op : Operation)
deriving DecidableEq

def Round.instr? : Round → Option Instr
  | .instr op => some op.instr
  | _ => none

theorem Round.instr?_eq_some_iff {r : Round} {i : Instr} :
    r.instr? = some i ↔ ∃ op, r = .instr op ∧ op.instr = i := by
  cases r <;> simp [instr?]

/-- What the next round of a run is. -/
def Machine.round [Bus σ] [Peripheral δ] (m : Machine σ δ) : Round :=
  match m.cpu.boundary with
  | .nmi => .nmi
  | .irq => .irq
  | .free => if m.cpu.regs.halted then .halt else .instr (Exec.step m).1.1

namespace Cpu

theorem boundary_eq_nmi {cpu : Cpu δ} :
    cpu.boundary = .nmi ↔ cpu.eiDelay = false ∧ cpu.nmiPending = true := by
  simp only [boundary]
  cases cpu.eiDelay <;> cases cpu.nmiPending <;> simp
  split <;> simp

theorem boundary_eq_irq {cpu : Cpu δ} :
    cpu.boundary = .irq ↔ cpu.eiDelay = false ∧ cpu.nmiPending = false ∧
      cpu.regs.iff1 = true ∧ cpu.irqRequested = true := by
  simp only [boundary]
  cases cpu.eiDelay <;> cases cpu.nmiPending <;> simp

theorem boundary_of_eiDelay {cpu : Cpu δ} (h : cpu.eiDelay) : cpu.boundary = .free := by
  rw [boundary, if_pos h]

/-! What each kind of round leaves behind. Each statement names what the round
computes anew; the rest is as it was. -/

structure TookNmi (before after : Cpu δ) : Prop where
  boundary : before.boundary = .nmi
  latches : after.regs.latches = { before.regs.latches with iff1 := false, halted := false }
  f : after.regs.f = before.regs.f
  rest : after = { before.acceptNmi with regs := after.regs, total := after.total }

structure TookIrq [Peripheral δ] (before after : Cpu δ) : Prop where
  boundary : before.boundary = .irq
  latches : after.regs.latches = ⟨false, false, false⟩
  f : after.regs.f =
    if before.afterLdAIR then { before.regs.f with p := false } else before.regs.f
  rest : after = { before.acceptIrq.acknowledged with regs := after.regs, total := after.total }

structure Idled (before after : Cpu δ) : Prop where
  boundary : before.boundary = .free
  halted : before.regs.halted = true
  latches : after.regs.latches = before.regs.latches
  f : after.regs.f = before.regs.f
  rest : after = { before.passDelay with regs := after.regs, total := after.total }

structure Ran [Peripheral δ] (i : Instr) (before after : Cpu δ) : Prop where
  boundary : before.boundary = .free
  running : before.regs.halted = false
  latches : before.regs.latches.Sound → after.regs.latches = i.onLatches before.regs.latches
  q : after.q = {} ∨ after.q = after.regs.f
  rest : after =
    { (if i = .reti then before.retiChain else before) with
      regs := after.regs
      total := after.total
      q := after.q
      eiDelay := i == .ei
      afterLdAIR := i.readsSystem }

end Cpu

/-- When a round happens and what it does. -/
def Round.Takes [Peripheral δ] : Round → Cpu δ → Cpu δ → Prop
  | .nmi => Cpu.TookNmi
  | .irq => Cpu.TookIrq
  | .halt => Cpu.Idled
  | .instr op => Cpu.Ran op.instr

namespace Exec

theorem idled_burnHalt {m : Machine σ δ} (remaining : Nat) (h : m.cpu.boundary = .free)
    (hhalted : m.cpu.regs.halted = true) :
    Cpu.Idled m.cpu (burnHalt remaining (m.onCpu Cpu.passDelay)).2.cpu where
  boundary := h
  halted := hhalted
  latches := rfl
  f := rfl
  rest := rfl

section

variable [Bus σ] {m : Machine σ δ}

theorem took_takeNmi (h : m.cpu.boundary = .nmi) : Cpu.TookNmi m.cpu (takeNmi m).2.cpu where
  boundary := h
  latches := takeNmi_latches m
  f := takeNmi_f m
  rest := by
    rw [takeNmi_frame m]
    rfl

variable [Peripheral δ]

theorem took_takeIrq (h : m.cpu.boundary = .irq) : Cpu.TookIrq m.cpu (takeIrq m).2.cpu where
  boundary := h
  latches := takeIrq_latches m
  f := takeIrq_f m
  rest := by
    rw [takeIrq_frame m]
    rfl

theorem ran_stepAndSkip (remaining : Nat) (h : m.cpu.boundary = .free)
    (hrunning : m.cpu.regs.halted = false) :
    Cpu.Ran (step m).1.1.instr m.cpu (stepAndSkip remaining (m.onCpu Cpu.passDelay)).2.cpu where
  boundary := h
  running := hrunning
  latches := by
    intro hsound
    have hlatches := stepAndSkip_latches (m := m.onCpu Cpu.passDelay) hsound remaining
    rwa [step_passDelay] at hlatches
  q := stepAndSkip_q ..
  rest := by
    have hskip := stepAndSkip_frame remaining (m.onCpu Cpu.passDelay)
    rw [step_passDelay] at hskip
    have hstep := congrArg
      (Cpu.around · (stepAndSkip remaining (m.onCpu Cpu.passDelay)).2.cpu) (step_frame m)
    rw [hskip.trans hstep]
    split <;> rfl

end

end Exec

/-- Only an `EI` puts off interrupts. -/
theorem Round.Takes.eiDelay_iff [Peripheral δ] {r : Round} {before after : Cpu δ}
    (h : r.Takes before after) : after.eiDelay ↔ r.instr? = some .ei := by
  cases r with
  | nmi =>
      have hrest := congrArg Cpu.eiDelay h.rest
      have hfree := (Cpu.boundary_eq_nmi.mp h.boundary).1
      simp [Round.instr?, hrest.trans hfree]
  | irq =>
      have hrest := congrArg Cpu.eiDelay h.rest
      have hfree := (Cpu.boundary_eq_irq.mp h.boundary).1
      simp [Round.instr?, hrest.trans hfree]
  | halt =>
      have hrest := congrArg Cpu.eiDelay h.rest
      simp [Round.instr?, hrest, Cpu.passDelay]
  | instr op =>
      have hrest := congrArg Cpu.eiDelay h.rest
      simp [Round.instr?, hrest]

theorem Round.Takes.elapse [Peripheral δ] {r : Round} {before after : Cpu δ}
    (h : r.Takes before after) (total : Nat) : r.Takes before { after with total } := by
  cases r with
  | nmi | irq | halt | instr _ =>
      exact { h with rest := congrArg (fun cpu : Cpu δ => { cpu with total }) h.rest }

namespace Machine

variable [Bus σ] [Peripheral δ]

/-- Every round is of the kind that its boundary tells. -/
theorem takes_round (remaining : Nat) (m : Machine σ δ) :
    m.round.Takes m.cpu
      ((Exec.advance remaining m).2.elapse (Exec.advance remaining m).1).cpu := by
  have hround : m.round.Takes m.cpu (Exec.advance remaining m).2.cpu := by
    cases hboundary : m.cpu.boundary with
    | nmi =>
        rw [Exec.advance_nmi remaining hboundary]
        simp only [round, hboundary]
        exact Exec.took_takeNmi hboundary
    | irq =>
        rw [Exec.advance_irq remaining hboundary]
        simp only [round, hboundary]
        exact Exec.took_takeIrq hboundary
    | free =>
        cases hhalted : m.cpu.regs.halted with
        | true =>
            rw [Exec.advance_halted remaining hboundary hhalted]
            simp only [round, hboundary, hhalted, if_true]
            exact Exec.idled_burnHalt remaining hboundary hhalted
        | false =>
            rw [Exec.advance_running remaining hboundary hhalted]
            simp only [round, hboundary, hhalted, Bool.false_eq_true, if_false]
            exact Exec.ran_stepAndSkip remaining hboundary hhalted
  exact hround.elapse _

end Machine
end Z80
