import Z80.Bus.Flat
import Z80.Daisy.StateLatch
import Z80.Proofs.Chronicle

/-!
The laws of the latches. They hold in every state that a processor comes to
from a reset, unless a host writes registers, contexts or images into it.
-/
namespace Z80

variable {δ : Type}

/-- The request writes what the processor otherwise computes itself. -/
def Request.writesState : Request δ → Bool
  | .setRegister _ _ | .setContext _ | .importImage _ | .modifyRegs _ => true
  | _ => false

namespace Cpu

structure Latched (cpu : Cpu δ) : Prop where
  enabled : cpu.regs.iff1 → cpu.regs.iff2
  delay : cpu.eiDelay → cpu.regs.iff1 ∧ ¬cpu.regs.halted ∧ ¬cpu.afterLdAIR
  /-- Only the parity flag may change behind the back of `q`. -/
  q : cpu.q = {} ∨ { cpu.q with p := cpu.regs.f.p } = cpu.regs.f

section

variable [Peripheral δ]

/-- A request that writes no state is a reset, or it leaves everything but
the lines, the configuration and the chain alone. -/
theorem serve_frame {cpu next : Cpu δ} {r : Request δ} (hr : r.writesState = false)
    (h : (cpu.serve r).2 = next) :
    r = .reset ∨ (∃ chain, r = .resetWith chain) ∨
      next =
        { cpu with
          config := next.config
          irqLine := next.irqLine
          nmiLine := next.nmiLine
          nmiPending := next.nmiPending
          chain := next.chain } := by
  cases r with
  | setRegister _ _ | setContext _ | importImage _ | modifyRegs _ => cases hr
  | reset => exact .inl rfl
  | resetWith chain => exact .inr (.inl ⟨chain, rfl⟩)
  | _ =>
      cases h
      exact .inr (.inr rfl)

theorem latched_resetWith (chain : Option (DaisyChain δ)) (cpu : Cpu δ) :
    (cpu.resetWith chain).Latched where
  enabled := id
  delay h := nomatch h
  q := .inl rfl

end

namespace Latched

theorem sound {cpu : Cpu δ} (h : cpu.Latched) : cpu.regs.latches.Sound :=
  h.enabled

variable {before after : Cpu δ} [Peripheral δ]

theorem takes_enabled {r : Round} (h : before.Latched) (hround : r.Takes before after) :
    after.regs.latches.Sound := by
  cases r with
  | nmi | irq =>
      rw [hround.latches]
      exact fun hiff1 => nomatch hiff1
  | halt =>
      rw [hround.latches]
      exact h.sound
  | instr op =>
      rw [hround.latches h.sound]
      exact h.sound.onLatches op.instr

theorem takes_delay {r : Round} (h : before.Latched) (hround : r.Takes before after)
    (hdelay : after.eiDelay) : after.regs.iff1 ∧ ¬after.regs.halted ∧ ¬after.afterLdAIR := by
  obtain ⟨op, rfl, hei⟩ := Round.instr?_eq_some_iff.mp (hround.eiDelay_iff.mp hdelay)
  have hlatches := hround.latches h.sound
  have hldAIR := congrArg Cpu.afterLdAIR hround.rest
  rw [hei] at hlatches hldAIR
  refine ⟨congrArg Latches.iff1 hlatches, ?_, Bool.eq_false_iff.mp hldAIR⟩
  have hhalted := (congrArg Latches.halted hlatches).trans hround.running
  exact Bool.eq_false_iff.mp hhalted

theorem takes_q {r : Round} (h : before.Latched) (hround : r.Takes before after) :
    after.q = {} ∨ { after.q with p := after.regs.f.p } = after.regs.f := by
  cases r with
  | nmi | halt =>
      have hq := congrArg Cpu.q hround.rest
      rw [hq, hround.f]
      exact h.q
  | irq =>
      have hq := congrArg Cpu.q hround.rest
      rw [hq, hround.f]
      rcases h.q with hclear | hflags
      · exact .inl hclear
      · right
        rw [← hflags]
        split <;> rfl
  | instr _ =>
      rcases hround.q with hq | hq
      · exact .inl hq
      · right
        rw [hq]

theorem takes {r : Round} (h : before.Latched) (hround : r.Takes before after) :
    after.Latched :=
  ⟨h.takes_enabled hround, h.takes_delay hround, h.takes_q hround⟩

theorem serve {r : Request δ} (h : before.Latched) (hr : r.writesState = false)
    (hserve : (before.serve r).2 = after) : after.Latched := by
  rcases serve_frame hr hserve with rfl | ⟨chain, rfl⟩ | hframe
  · cases hserve
    exact latched_resetWith before.chain before
  · cases hserve
    exact latched_resetWith chain before
  · rw [hframe]
    exact ⟨h.enabled, h.delay, h.q⟩

end Latched

variable [Peripheral δ] {allowed : Request δ → Prop} {first last cpu : Cpu δ}
  {log : List (Moment δ)}

theorem Latched.moment (hallowed : ∀ r, allowed r → r.writesState = false) {x : Moment δ}
    (hx : x.Lawful allowed) (h : x.before.Latched) : x.after.Latched := by
  simp only [Moment.Lawful] at hx
  split at hx
  · exact h.takes hx
  · exact h.serve (hallowed _ hx.1) hx.2

theorem Leads.latched (hlog : Leads allowed first log last)
    (hallowed : ∀ r, allowed r → r.writesState = false) (h : first.Latched) : last.Latched :=
  hlog.invariant (fun _ hx => Latched.moment hallowed hx) h

/-- From a reset on the latches obey their laws. -/
theorem Chronicle.latch_laws (h : cpu.Chronicle (fun r => r.writesState = false) log) :
    cpu.Latched := by
  obtain ⟨chain, old, hlog⟩ := h.leads
  exact hlog.latched (fun _ hr => hr) (latched_resetWith chain old)

/-- An interrupt right after `EI` and `LD A,I`. The flags have lost the parity
that is still in `q`. -/
theorem Chronicle.latch_laws_flat :
    let held := ({} : Cpu StateLatch).setIrqLine .hold
    let m : Machine Bus.Flat StateLatch := ⟨held, Bus.Flat.load 0 [0xFB, 0xED, 0x57] {}⟩
    let log := [⟨{}, .request (.setIrqLine .hold), held⟩] ++ m.moments 14
    (m.run 14).2.cpu.Chronicle (fun r => r.writesState = false) log ∧
    (m.run 14).2.cpu.q.p = true ∧ (m.run 14).2.cpu.regs.f.p = false ∧
    (m.run 14).2.cpu.Latched := by
  intro held m log
  have hlog : (m.run 14).2.cpu.Chronicle (fun r => r.writesState = false) log :=
    .run m.bus 14 (.serve (.reset none {}) rfl rfl)
  exact ⟨hlog, by decide +kernel, by decide +kernel, latch_laws hlog⟩

end Cpu
end Z80
