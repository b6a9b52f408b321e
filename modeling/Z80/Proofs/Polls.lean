import Z80.Proofs.ChainSteps
import Z80.Proofs.Devices
import Z80.Proofs.Requests

/-!
The devices along a log. An acknowledge changes the device that it enters, a
return from interrupt the one that is told of it, and the host the one that it
reaches from outside. With the first two, and when the IRQ line is driven
active, the chain polls its devices; all else leaves what it has latched.
-/
namespace Z80

variable {δ : Type}

open Peripheral

/-- The request reaches the processor from outside. Of the state of a device it
changes at most whether the device asks for service. -/
def Request.OnlyAsks [Peripheral δ] : Request δ → Prop
  | .modifyDevice _ g => ∀ d, irqState (g d) ||| requestBit = irqState d ||| requestBit
  | r => r.isRoutine

theorem Request.OnlyAsks.isRoutine [Peripheral δ] {r : Request δ} (h : r.OnlyAsks) :
    r.isRoutine := by
  cases r with
  | modifyDevice _ _ => rfl
  | _ => exact h

namespace TidyLatch

theorem onlyAsks_ask (i : Nat) : (Request.modifyDevice i ask).OnlyAsks := by
  intro d
  exact (BitVec.or_assoc ..).trans (congrArg _ (BitVec.or_self ..))

theorem onlyAsks_withdraw (i : Nat) : (Request.modifyDevice i withdraw).OnlyAsks := by
  intro d
  have hmask : ∀ s : Byte, s &&& ~~~requestBit ||| requestBit = s ||| requestBit := by
    decide +kernel
  exact hmask d.val.state

end TidyLatch

namespace Moment

/-- The device whose request is taken, if the moment is an acknowledge that
the chain answers. -/
def entered? (x : Moment δ) : Option Nat :=
  if x.isIrq then x.before.chain.bind fun c => c.request.filter (· < c.size) else none

/-- The chain reads its devices anew: the IRQ line is driven active, a device is
entered, or one is told of a return from interrupt. -/
def polls (x : Moment δ) : Bool :=
  match x.event with
  | .request (.setIrqLine s) => s.isActive
  | .round .irq => x.entered?.isSome
  | .round (.instr op) => op.instr == .reti && (x.before.chain.bind DaisyChain.service).isSome
  | _ => false

theorem entered?_eq_some_iff {x : Moment δ} {i : Nat} :
    x.entered? = some i ↔
      x.event = .round .irq ∧ ∃ c, x.before.chain = some c ∧ c.request = some i ∧ i < c.size := by
  have hirq : x.isIrq ↔ x.event = .round .irq := by
    rw [isIrq_iff]
    refine ⟨event_of_round?, fun h => ?_⟩
    rw [round?, h]
  simp only [entered?, ← hirq]
  split <;> simp_all [Option.bind_eq_some_iff, Option.filter_eq_some_iff]

/-- A round in which the chain polls enters a device or is a return that one
hears of. -/
theorem polls_round {x : Moment δ} (hround : x.round?.isSome) (hpolls : x.polls) :
    x.entered?.isSome ∨
      x.instr? = some .reti ∧ ∃ c, x.before.chain = some c ∧ ∃ i, c.service = some i := by
  obtain ⟨r, hr⟩ := Option.isSome_iff_exists.mp hround
  have hevent := event_of_round? hr
  cases r with
  | nmi | halt => simp [polls, hevent] at hpolls
  | irq =>
      left
      simpa only [polls, hevent] using hpolls
  | instr op =>
      right
      simp only [polls, hevent, Bool.and_eq_true, beq_iff_eq] at hpolls
      obtain ⟨i, hi⟩ := Option.isSome_iff_exists.mp hpolls.2
      obtain ⟨c, hchain, hservice⟩ := Option.bind_eq_some_iff.mp hi
      refine ⟨?_, c, hchain, i, hservice⟩
      rw [instr?, hr, ← hpolls.1]
      rfl

theorem event_of_instr? {x : Moment δ} {i : Instr} (h : x.instr? = some i) :
    ∃ op, x.event = .round (.instr op) ∧ op.instr = i := by
  obtain ⟨r, hround, hr⟩ := Option.bind_eq_some_iff.mp h
  obtain ⟨op, rfl, hop⟩ := Round.instr?_eq_some_iff.mp hr
  exact ⟨op, event_of_round? hround, hop⟩

variable [Peripheral δ] {x : Moment δ}

theorem Lawful.peripherals (h : x.Lawful fun r => r.isRoutine) :
    x.after.peripherals =
      (x.before.chain.map fun c => (x.event.onChain c).devices).getD [] := by
  rw [Cpu.peripherals, h.chain, Option.map_map]
  rfl

theorem Lawful.peripherals_of_entered (h : x.Lawful fun r => r.isRoutine) {i : Nat}
    (hi : x.entered? = some i) :
    x.after.peripherals = x.before.peripherals.modify i fun d => (interruptEntry d).2 := by
  obtain ⟨hirq, c, hchain, hrequest, hlt⟩ := entered?_eq_some_iff.mp hi
  have hempty := DaisyChain.not_isEmpty_of_lt hlt
  rw [h.peripherals, Cpu.peripherals_of_chain hchain, hchain,
    ← DaisyChain.devices_acknowledge hrequest]
  simp only [hirq, Event.onChain, if_neg hempty, Option.map_some, Option.getD_some]

/-- A maskable interrupt on a chain with devices is taken for one of them. -/
theorem Lawful.entered_of_irq (h : x.Lawful fun r => r.isRoutine)
    (hbefore : x.before.ChainInRange) (hirq : x.isIrq) (hdevices : x.before.peripherals ≠ []) :
    ∃ i, x.entered? = some i := by
  have hround := isIrq_iff.mp hirq
  have htaken : Cpu.TookIrq x.before x.after := h.takes hround
  obtain ⟨-, -, -, hrequested⟩ := Cpu.boundary_eq_irq.mp htaken.boundary
  cases hchain : x.before.chain with
  | none =>
      rw [Cpu.peripherals, hchain] at hdevices
      exact absurd rfl hdevices
  | some c =>
      rw [Cpu.peripherals_of_chain hchain] at hdevices
      have hempty : ¬c.isEmpty := fun hempty => hdevices (List.isEmpty_iff.mp hempty)
      simp only [Cpu.irqRequested, hchain, if_neg hempty] at hrequested
      obtain ⟨i, hi⟩ := Option.isSome_iff_exists.mp hrequested
      have hlt := (hbefore c hchain).request i hi
      exact ⟨i, entered?_eq_some_iff.mpr ⟨event_of_round? hround, c, hchain, hi, hlt⟩⟩

theorem Lawful.peripherals_of_reti (h : x.Lawful fun r => r.isRoutine)
    (hreti : x.instr? = some .reti) {c : DaisyChain δ} (hchain : x.before.chain = some c) {i : Nat}
    (hservice : c.service = some i) :
    x.after.peripherals = x.before.peripherals.modify i interruptReti := by
  obtain ⟨op, hevent, hop⟩ := event_of_instr? hreti
  rw [h.peripherals, Cpu.peripherals_of_chain hchain, hchain,
    ← DaisyChain.devices_reti hservice]
  simp only [hevent, Event.onChain, if_pos hop, Option.map_some, Option.getD_some]

theorem onChain_of_polls {c : DaisyChain δ} (hchain : x.before.chain = some c)
    (hpolls : x.polls) : ∃ polled, x.event.onChain c = DaisyChain.arbitrate polled := by
  cases hevent : x.event with
  | round r =>
      cases r with
      | nmi | halt => simp [polls, hevent] at hpolls
      | irq =>
          simp only [polls, hevent] at hpolls
          obtain ⟨i, hi⟩ := Option.isSome_iff_exists.mp hpolls
          obtain ⟨-, d, hd, hrequest, hlt⟩ := entered?_eq_some_iff.mp hi
          obtain rfl : c = d := Option.some.inj (hchain.symm.trans hd)
          have hdevice := List.getElem?_eq_getElem hlt
          refine ⟨c.setDevice i (interruptEntry c.devices[i]).2, ?_⟩
          simp only [Event.onChain, if_neg (DaisyChain.not_isEmpty_of_lt hlt),
            DaisyChain.acknowledge, hrequest, hdevice]
      | instr op =>
          simp only [polls, hevent, hchain, Bool.and_eq_true, beq_iff_eq] at hpolls
          obtain ⟨i, hservice⟩ := Option.isSome_iff_exists.mp hpolls.2
          have hservice : c.service = some i := hservice
          refine ⟨c.modifyDevice i interruptReti, ?_⟩
          simp only [Event.onChain, if_pos hpolls.1, DaisyChain.reti, hservice]
  | request r =>
      cases r with
      | setIrqLine s =>
          simp only [polls, hevent] at hpolls
          exact ⟨c, if_pos hpolls⟩
      | _ => simp [polls, hevent] at hpolls

/-- Without a poll only the host reaches the chain. -/
theorem onChain_of_not_polls {c : DaisyChain δ} (hchain : x.before.chain = some c)
    (hpolls : ¬x.polls) (hdevice : ∀ i g, x.event ≠ .request (.modifyDevice i g)) :
    x.event.onChain c = c := by
  cases hevent : x.event with
  | round r =>
      cases r with
      | nmi | halt => rfl
      | irq =>
          simp only [Event.onChain]
          split
          · rfl
          · cases hrequest : c.request with
            | none => rw [DaisyChain.acknowledge_none hrequest]
            | some i =>
                -- Beyond the last device there is nothing to enter.
                apply DaisyChain.acknowledge_beyond hrequest
                intro hlt
                have hentered := entered?_eq_some_iff.mpr ⟨hevent, c, hchain, hrequest, hlt⟩
                simp [polls, hevent, hentered] at hpolls
      | instr op =>
          simp only [Event.onChain]
          split
          · rename_i hreti
            apply DaisyChain.reti_none
            simpa [polls, hevent, hchain, hreti] using hpolls
          · rfl
  | request r =>
      cases r with
      | setIrqLine s =>
          simp only [polls, hevent] at hpolls
          exact if_neg hpolls
      | modifyDevice i g => exact absurd hevent (hdevice i g)
      | _ => rfl

theorem Lawful.chain_of_not_polls (h : x.Lawful fun r => r.isRoutine) (hpolls : ¬x.polls)
    (hdevice : ∀ i g, x.event ≠ .request (.modifyDevice i g)) :
    x.after.chain = x.before.chain := by
  rw [h.chain]
  cases hchain : x.before.chain with
  | none => rfl
  | some c => exact congrArg some (onChain_of_not_polls hchain hpolls hdevice)

theorem Lawful.peripherals_of_round (h : x.Lawful fun r => r.isRoutine) (hround : x.round?.isSome)
    (hpolls : ¬x.polls) : x.after.peripherals = x.before.peripherals := by
  have hchain : x.after.chain = x.before.chain := by
    refine h.chain_of_not_polls hpolls fun i g hevent => ?_
    rw [round?, hevent] at hround
    cases hround
  rw [Cpu.peripherals, hchain, Cpu.peripherals]

end Moment

namespace Cpu.Chronicle

variable [Peripheral δ] {allowed : Request δ → Prop} {cpu : Cpu δ} {log : List (Moment δ)}

theorem reach (h : cpu.Chronicle allowed log) (i : Nat) (g : δ → δ)
    (hr : allowed (.modifyDevice i g)) :
    (cpu.modifyDevice i g).Chronicle allowed
      (log ++ [⟨cpu, .request (.modifyDevice i g), cpu.modifyDevice i g⟩]) :=
  .serve h hr rfl

theorem drive (h : cpu.Chronicle allowed log) (s : LineState) (hr : allowed (.setIrqLine s)) :
    (cpu.setIrqLine s).Chronicle allowed
      (log ++ [⟨cpu, .request (.setIrqLine s), cpu.setIrqLine s⟩]) :=
  .serve h hr rfl

end Cpu.Chronicle

end Z80
