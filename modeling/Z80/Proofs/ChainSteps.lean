import Z80.Proofs.ChainRange
import Z80.Proofs.Gating

/-!
The attached chain along a log. Of the events that a host has to do with
routinely only four reach it: an acknowledge, a return from interrupt, an
active IRQ line and a change of a device from outside. Each changes it in its
own way.
-/
namespace Z80

variable {δ : Type} [Peripheral δ]

/-- What an event does to the attached chain. -/
def Event.onChain (e : Event δ) (c : DaisyChain δ) : DaisyChain δ :=
  match e with
  | .round .irq => if c.isEmpty then c else c.acknowledge.2
  | .round (.instr op) => if op.instr = .reti then c.reti else c
  | .request (.setIrqLine s) => if s.isActive then c.arbitrate else c
  | .request (.modifyDevice i g) => c.modifyDevice i g
  | _ => c

/-- What holds of the chain and is kept by all that can reach it holds after
every event. -/
theorem Event.onChain_cases {P : DaisyChain δ → Prop} {c : DaisyChain δ} (e : Event δ) (h : P c)
    (hirq : e = .round .irq → ¬c.isEmpty → P c.acknowledge.2) (hreti : P c.reti)
    (harbitrate : P c.arbitrate)
    (hdevice : ∀ i g, e = .request (.modifyDevice i g) → P (c.modifyDevice i g)) :
    P (e.onChain c) := by
  cases e with
  | round r =>
      cases r with
      | nmi | halt => exact h
      | irq =>
          simp only [onChain]
          split
          · exact h
          · exact hirq rfl ‹_›
      | instr op =>
          simp only [onChain]
          split
          · exact hreti
          · exact h
  | request r =>
      cases r with
      | setIrqLine s =>
          simp only [onChain]
          split
          · exact harbitrate
          · exact h
      | modifyDevice i g => exact hdevice i g rfl
      | _ => exact h

theorem DaisyChain.InRange.onChain {c : DaisyChain δ} (h : c.InRange) (e : Event δ) :
    (e.onChain c).InRange :=
  e.onChain_cases h (fun _ _ => h.acknowledge) h.reti (inRange_arbitrate c)
    fun i g _ => h.modifyDevice i g

theorem Round.Takes.chain {r : Round} {before after : Cpu δ}
    (h : r.Takes before after) : after.chain = before.chain.map (Event.round r).onChain := by
  cases r with
  | nmi | halt =>
      have hrest := congrArg Cpu.chain h.rest
      exact hrest.trans Option.map_id_apply.symm
  | irq =>
      have hrest := congrArg Cpu.chain h.rest
      exact hrest
  | instr op =>
      have hrest := congrArg Cpu.chain h.rest
      by_cases hreti : op.instr = .reti
      · have hevent : (Event.round (.instr op)).onChain = DaisyChain.reti (δ := δ) := by
          funext c
          exact if_pos hreti
        rw [hevent, hrest, if_pos hreti]
        rfl
      · have hevent : (Event.round (.instr op)).onChain = (id : DaisyChain δ → _) := by
          funext c
          exact if_neg hreti
        rw [hevent, hrest, if_neg hreti, Option.map_id_apply]

theorem Cpu.chain_of_serve {cpu next : Cpu δ} {r : Request δ} (hr : r.isRoutine)
    (h : (cpu.serve r).2 = next) : next.chain = cpu.chain.map (Event.request r).onChain := by
  cases r with
  | setIrqLine s =>
      cases h
      cases s with
      | clear => exact Option.map_id_apply.symm
      | assert | hold => rfl
  | setNmiLine _ | setConfig _ =>
      cases h
      exact Option.map_id_apply.symm
  | modifyDevice i g =>
      cases h
      rfl
  | _ => cases hr

namespace Moment

variable {x : Moment δ} {allowed other : Request δ → Prop}

theorem Lawful.mono (h : x.Lawful allowed) (hle : ∀ r, allowed r → other r) :
    x.Lawful other := by
  obtain ⟨before, event, after⟩ := x
  cases event with
  | round r => exact h
  | request r => exact ⟨hle r h.1, h.2⟩

theorem Lawful.chain (h : x.Lawful fun r => r.isRoutine) :
    x.after.chain = x.before.chain.map x.event.onChain := by
  obtain ⟨before, event, after⟩ := x
  cases event with
  | round r => exact Round.Takes.chain h
  | request r => exact Cpu.chain_of_serve h.1 h.2

theorem Lawful.chainInRange (h : x.Lawful fun r => r.isRoutine)
    (hbefore : x.before.ChainInRange) : x.after.ChainInRange :=
  Cpu.chainInRange_map hbefore (fun _ hc => hc.onChain x.event) h.chain

end Moment
end Z80
