import Mathlib.Data.List.Induction
import Z80.Proofs.LatchLaws

/-!
When interrupts are accepted. None is accepted directly after an `EI`, and
between two maskable interrupts an `EI` is executed and another instruction
after it. The calls of the host that are allowed for this drive the lines, set
the configuration and change the devices of the chain.
-/
namespace Z80

variable {δ : Type}

/-- The request reaches the processor from outside and leaves its registers
and latches alone. -/
def Request.isRoutine : Request δ → Bool
  | .setIrqLine _ | .setNmiLine _ | .setConfig _ | .modifyDevice _ _ => true
  | _ => false

theorem Request.writesState_of_isRoutine (r : Request δ) (h : r.isRoutine) :
    r.writesState = false := by
  cases r with
  | setRegister _ _ | setContext _ | importImage _ | modifyRegs _ => cases h
  | _ => rfl

/-- The last round of a log. -/
def lastRound? (log : List (Moment δ)) : Option Round :=
  (log.filterMap Moment.round?).getLast?

/-- The boundary at the end of the log comes directly after an `EI`. -/
def Shadowed (log : List (Moment δ)) : Prop :=
  (lastRound? log).bind Round.instr? = some .ei

/-- The interrupts in a log are accepted only when they may be. -/
structure Gated (log : List (Moment δ)) : Prop where
  /-- None is accepted directly after an `EI`. -/
  shadow : ∀ past x future, log = past ++ x :: future → Shadowed past →
    x.round? ≠ some .nmi ∧ x.round? ≠ some .irq
  /-- Between two maskable ones there is an `EI`, and after the last `EI`
  another instruction. -/
  between : ∀ past x mid y future, log = past ++ x :: mid ++ y :: future →
    x.round? = some .irq → y.round? = some .irq →
    ∃ earlier ei later, mid = earlier ++ ei :: later ∧ ei.instr? = some .ei ∧
      (∀ z ∈ later, z.instr? ≠ some .ei) ∧ ∃ z ∈ later, z.instr?.isSome

theorem lastRound?_concat (log : List (Moment δ)) (x : Moment δ) :
    lastRound? (log ++ [x]) = x.round?.or (lastRound? log) := by
  simp only [lastRound?, List.filterMap_append, List.getLast?_append]
  cases hround : x.round? <;> simp [hround]

/-- Interrupts are disabled in both flip-flops. -/
def Latches.Off (l : Latches) : Prop :=
  l.iff1 = false ∧ l.iff2 = false

theorem Latches.Off.onLatches {l : Latches} (h : l.Off) {i : Instr} (hi : i ≠ .ei) :
    (i.onLatches l).Off := by
  cases i with
  | ei => exact absurd rfl hi
  | retn | reti => exact ⟨h.2, h.2⟩
  | di => exact ⟨rfl, rfl⟩
  | _ => exact h

namespace Cpu

variable [Peripheral δ]

theorem serve_routine {cpu next : Cpu δ} {r : Request δ} (hr : r.isRoutine)
    (h : (cpu.serve r).2 = next) :
    next =
      { cpu with
        config := next.config
        irqLine := next.irqLine
        nmiLine := next.nmiLine
        nmiPending := next.nmiPending
        chain := next.chain } := by
  rcases serve_frame (r.writesState_of_isRoutine hr) h with rfl | ⟨_, rfl⟩ | hframe
  · cases hr
  · cases hr
  · exact hframe

end Cpu

namespace Round.Takes

variable [Peripheral δ] {r : Round} {before after : Cpu δ}

/-- Directly after an `EI` the next round is an instruction. -/
theorem isSome_instr? (h : r.Takes before after) (hbefore : before.Latched)
    (hdelay : before.eiDelay) : r.instr?.isSome := by
  have hfree := Cpu.boundary_of_eiDelay hdelay
  cases r with
  | nmi | irq => exact nomatch h.boundary.symm.trans hfree
  | halt => exact absurd h.halted (hbefore.delay hdelay).2.1
  | instr _ => rfl

theorem off (h : r.Takes before after) (hbefore : before.Latched)
    (hoff : before.regs.latches.Off) (hei : r.instr? ≠ some .ei) : after.regs.latches.Off := by
  cases r with
  | nmi =>
      rw [h.latches]
      exact ⟨rfl, hoff.2⟩
  | irq =>
      rw [h.latches]
      exact ⟨rfl, rfl⟩
  | halt =>
      rw [h.latches]
      exact hoff
  | instr op =>
      rw [h.latches hbefore.sound]
      exact hoff.onLatches fun hi => hei (congrArg some hi)

end Round.Takes

namespace Moment

variable [Peripheral δ] {x : Moment δ}

/-- A moment is a round, or a request that leaves the registers and latches. -/
theorem Lawful.cases (h : x.Lawful fun r => r.isRoutine) :
    (∃ r, x.round? = some r ∧ r.Takes x.before x.after) ∨
      x.round? = none ∧ x.after.regs = x.before.regs ∧ x.after.eiDelay = x.before.eiDelay := by
  cases hround : x.round? with
  | some r => exact .inl ⟨r, rfl, h.takes hround⟩
  | none =>
      simp only [Lawful] at h
      split at h
      · rename_i hevent
        simp [round?, hevent] at hround
      · have hframe := Cpu.serve_routine h.1 h.2
        have hregs := congrArg Cpu.regs hframe
        have hdelay := congrArg Cpu.eiDelay hframe
        exact .inr ⟨rfl, hregs, hdelay⟩

theorem Lawful.eiDelay_of_ei {allowed : Request δ → Prop} (h : x.Lawful allowed)
    (hei : x.instr? = some .ei) : x.after.eiDelay := by
  obtain ⟨r, hround, hr⟩ := Option.bind_eq_some_iff.mp hei
  exact (h.takes hround).eiDelay_iff.mpr hr

end Moment

namespace Cpu.Leads

variable [Peripheral δ] {first last : Cpu δ} {log : List (Moment δ)}

theorem eiDelay_iff (h : Leads (fun r => r.isRoutine) first log last)
    (hfirst : first.eiDelay = false) : last.eiDelay ↔ Shadowed log := by
  induction log using List.reverseRecOn generalizing last with
  | nil => simp [← h.eq_of_nil, hfirst, Shadowed, lastRound?]
  | append_singleton log x ih =>
      obtain ⟨hpast, hx, rfl⟩ := h.unsnoc
      rw [Shadowed, lastRound?_concat]
      rcases hx.cases with ⟨r, hr, htakes⟩ | ⟨hnone, -, hkept⟩
      · rw [hr]
        exact htakes.eiDelay_iff
      · rw [hnone, hkept]
        exact ih hpast

/-- As long as no instruction is executed, the shadow of an `EI` lasts. -/
theorem eiDelay_lasts (h : Leads (fun r => r.isRoutine) first log last)
    (hfirst : first.Latched) (hdelay : first.eiDelay) (hnone : ∀ z ∈ log, z.instr? = none) :
    last.eiDelay := by
  induction h with
  | nil _ => exact hdelay
  | @cons x log _ hx _ ih =>
      have hafter := hfirst.moment Request.writesState_of_isRoutine hx
      refine ih hafter ?_ fun z hz => hnone z (List.mem_cons_of_mem x hz)
      rcases hx.cases with ⟨r, hr, htakes⟩ | ⟨-, -, hkept⟩
      · have hinstr := htakes.isSome_instr? hfirst hdelay
        have hx := hnone x List.mem_cons_self
        simp [Moment.instr?, hr] at hx
        simp [hx] at hinstr
      · rw [hkept]
        exact hdelay

/-- Disabled interrupts stay disabled up to the next `EI`. -/
theorem off_or_ei (h : Leads (fun r => r.isRoutine) first log last) (hfirst : first.Latched)
    (hoff : first.regs.latches.Off) :
    last.regs.latches.Off ∨
      ∃ earlier ei later, log = earlier ++ ei :: later ∧ ei.instr? = some .ei ∧
        ∀ z ∈ later, z.instr? ≠ some .ei := by
  induction log using List.reverseRecOn generalizing last with
  | nil =>
      rw [← h.eq_of_nil]
      exact .inl hoff
  | append_singleton log x ih =>
      obtain ⟨hpast, hx, rfl⟩ := h.unsnoc
      by_cases hei : x.instr? = some .ei
      · exact .inr ⟨log, x, [], rfl, hei, fun _ hz => nomatch hz⟩
      rcases ih hpast with hlast | ⟨earlier, ei, later, rfl, hfound, hlater⟩
      · left
        rcases hx.cases with ⟨r, hr, htakes⟩ | ⟨-, hregs, -⟩
        · have hbefore := hpast.latched Request.writesState_of_isRoutine hfirst
          refine htakes.off hbefore hlast ?_
          simpa [Moment.instr?, hr] using hei
        · rw [hregs]
          exact hlast
      · refine .inr ⟨earlier, ei, later ++ [x], by simp, hfound, ?_⟩
        simp only [List.mem_append, List.mem_singleton]
        rintro z (hz | rfl)
        · exact hlater z hz
        · exact hei

theorem gated (h : Leads (fun r => r.isRoutine) first log last) (hfirst : first.Latched)
    (hdelay : first.eiDelay = false) : Gated log where
  shadow := by
    rintro past x future rfl hshadow
    obtain ⟨hpast, hx, -⟩ := h.focus
    have hafterEi := (hpast.eiDelay_iff hdelay).mpr hshadow
    have hbefore := hpast.latched Request.writesState_of_isRoutine hfirst
    constructor
    · intro hround
      exact nomatch (hx.takes hround).isSome_instr? hbefore hafterEi
    · intro hround
      exact nomatch (hx.takes hround).isSome_instr? hbefore hafterEi
  between := by
    rintro past x mid y future rfl hxirq hyirq
    obtain ⟨hpast, hy, -⟩ := h.focus
    obtain ⟨hpast, hx, hmid⟩ := hpast.focus
    have hirqX : TookIrq x.before x.after := hx.takes hxirq
    have hirqY : TookIrq y.before y.after := hy.takes hyirq
    obtain ⟨hfree, -, henabled, -⟩ := boundary_eq_irq.mp hirqY.boundary
    have hlatched := (hpast.latched Request.writesState_of_isRoutine hfirst).moment
      Request.writesState_of_isRoutine hx
    have hoff : x.after.regs.latches.Off := by
      rw [hirqX.latches]
      exact ⟨rfl, rfl⟩
    rcases hmid.off_or_ei hlatched hoff with hdisabled | ⟨earlier, ei, later, rfl, hei, hlater⟩
    · exact absurd (hdisabled.1.symm.trans henabled) Bool.false_ne_true
    refine ⟨earlier, ei, later, rfl, hei, hlater, ?_⟩
    -- Without an instruction the shadow of the last `EI` would reach the second interrupt.
    obtain ⟨hearlier, hlawful, hlast⟩ := hmid.focus
    have hafterEi := (hearlier.latched Request.writesState_of_isRoutine hlatched).moment
      Request.writesState_of_isRoutine hlawful
    by_contra hnone
    have hlasts := hlast.eiDelay_lasts hafterEi (hlawful.eiDelay_of_ei hei) fun z hz =>
      Option.not_isSome_iff_eq_none.mp fun hsome => hnone ⟨z, hz, hsome⟩
    exact absurd (hfree.symm.trans hlasts) Bool.false_ne_true

end Cpu.Leads

/-- In every run from a reset the interrupts are gated. -/
theorem Cpu.Chronicle.interrupts_gated [Peripheral δ] {cpu : Cpu δ} {log : List (Moment δ)}
    (h : cpu.Chronicle (fun r => r.isRoutine) log) : Gated log := by
  obtain ⟨chain, old, hlog⟩ := h.leads
  exact hlog.gated (latched_resetWith chain old) rfl

/-- A line that stays asserted, a first slice that ends with the `EI`, and two
interrupts in the second slice. -/
theorem Cpu.Chronicle.interrupts_gated_flat :
    let asserted := ({} : Cpu StateLatch).setIrqLine .assert
    let bus := (Bus.Flat.load 0 [0xFB, 0x76] {}).load 0x38 [0xFB, 0xC9]
    let m : Machine Bus.Flat StateLatch := ⟨asserted, bus⟩
    let next := (m.run 4).2
    let log := [⟨{}, .request (.setIrqLine .assert), asserted⟩] ++ m.moments 4 ++ next.moments 40
    (next.run 40).2.cpu.Chronicle (fun r => r.isRoutine) log ∧
    log.countP (fun x => x.round? = some .irq) = 2 ∧ Gated log := by
  intro asserted bus m next log
  have hasserted : asserted.Chronicle (fun r => r.isRoutine)
      [⟨{}, .request (.setIrqLine .assert), asserted⟩] := .serve (.reset none {}) rfl rfl
  have hlog : (next.run 40).2.cpu.Chronicle (fun r => r.isRoutine) log :=
    .run next.bus 40 (.run bus 4 hasserted)
  exact ⟨hlog, by decide +kernel, interrupts_gated hlog⟩

end Z80
