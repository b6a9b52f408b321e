import Z80.Proofs.Polls
import Z80.Proofs.Modes
import Z80.Proofs.Snapshot

/-!
States without faults. As long as a host does not write straight to the
register file, the interrupt mode exists and the indices of an attached chain
are those of its devices. So an acknowledge is answered by a device, a return
from interrupt is told to one, and the image of the processor is one that it
takes back.
-/
namespace Z80

variable {δ : Type}

open Peripheral

/-- No interrupt and no return from one can go wrong from this state on. -/
structure Cpu.Faultless [Peripheral δ] (cpu : Cpu δ) : Prop where
  mode : cpu.regs.im.toNat ≤ 2
  indices : cpu.ChainInRange
  /-- In every run an interrupt on a chain with devices is answered by the device
  that the chain has chosen. -/
  acknowledge : ∀ {σ : Type} [Bus σ] (bus : σ) (budget : Nat),
    ∀ x ∈ (Machine.mk cpu bus).moments budget, x.isIrq →
      ∀ chain ∈ x.before.chain, ¬chain.isEmpty →
        ∃ i d, chain.request = some i ∧ chain.devices[i]? = some d ∧
          chain.acknowledge.1 = some (interruptEntry d).1
  /-- A return from interrupt that is told to a device finds it. -/
  reti : ∀ {σ : Type} [Bus σ] (bus : σ) (budget : Nat),
    ∀ x ∈ (Machine.mk cpu bus).moments budget, x.instr? = some .reti →
      ∀ chain ∈ x.before.chain, ∀ i ∈ chain.service, i < chain.size
  image : cpu.importImage cpu.exportImage = .ok cpu

theorem DaisyChain.acknowledge_of_lt [Peripheral δ] {c : DaisyChain δ} {i : Nat}
    (h : c.request = some i) (hlt : i < c.size) :
    ∃ d, c.devices[i]? = some d ∧ c.acknowledge.1 = some (interruptEntry d).1 := by
  have hdevice := List.getElem?_eq_getElem hlt
  refine ⟨c.devices[i], hdevice, ?_⟩
  simp only [acknowledge, h, hdevice]

namespace Machine

variable {σ : Type} [Bus σ] [Peripheral δ] {remaining : Nat} {m : Machine σ δ} {x : Moment δ}

/-- Every moment of a run is lawful and begins with the indices in range. -/
theorem lawful_of_mem_moments (h : m.cpu.ChainInRange) (hx : x ∈ m.moments remaining) :
    x.Lawful (fun r => r.isRoutine) ∧ x.before.ChainInRange := by
  obtain ⟨past, future, hlog⟩ := List.append_of_mem hx
  have hleads := leads_moments (fun r => r.isRoutine) remaining m
  rw [hlog] at hleads
  obtain ⟨hpast, hlawful, -⟩ := hleads.focus
  exact ⟨hlawful, hpast.invariant (fun _ hy => hy.chainInRange) h⟩

theorem acknowledge_of_mem_moments (h : m.cpu.ChainInRange) (hx : x ∈ m.moments remaining)
    (hirq : x.isIrq) {chain : DaisyChain δ} (hchain : x.before.chain = some chain)
    (hempty : ¬chain.isEmpty) :
    ∃ i d, chain.request = some i ∧ chain.devices[i]? = some d ∧
      chain.acknowledge.1 = some (interruptEntry d).1 := by
  obtain ⟨hlawful, hrange⟩ := lawful_of_mem_moments h hx
  have hdevices : x.before.peripherals ≠ [] := by
    rw [Cpu.peripherals_of_chain hchain]
    exact fun hnil => hempty (List.isEmpty_iff.mpr hnil)
  obtain ⟨i, hi⟩ := hlawful.entered_of_irq hrange hirq hdevices
  obtain ⟨-, c, hc, hrequest, hlt⟩ := Moment.entered?_eq_some_iff.mp hi
  obtain rfl : chain = c := Option.some.inj (hchain.symm.trans hc)
  obtain ⟨d, hd, hvector⟩ := DaisyChain.acknowledge_of_lt hrequest hlt
  exact ⟨i, d, hrequest, hd, hvector⟩

end Machine

/-- Whatever a host does short of writing straight to the register file. -/
theorem Cpu.Reachable.faultless [Peripheral δ] {cpu : Cpu δ}
    (h : cpu.Reachable fun r => r.isRaw = false) : cpu.Faultless where
  mode := h.im_le
  indices := h.chainInRange
  acknowledge _ _ _ hx hirq _ hchain hempty :=
    Machine.acknowledge_of_mem_moments h.chainInRange hx hirq hchain hempty
  reti _ _ _ hx _ chain hchain :=
    ((Machine.lawful_of_mem_moments h.chainInRange hx).2 chain hchain).service
  image := importImage_exportImage h.chainInRange h.im_le rfl rfl

/-- The second of two devices is under service, in a mode that was written as 7. -/
theorem Cpu.Reachable.faultless_two :
    let chain : DaisyChain TidyLatch :=
      { devices := [.ofVector 0x08, .ofVector 0x10], length_le := by decide }
    let start := ({} : Cpu TidyLatch).resetWith (some chain)
    let asking := (start.setRegister .im 7).modifyDevice 1 TidyLatch.ask
    let m : Machine Bus.Flat TidyLatch := ⟨asking.setIrqLine .assert, Bus.Flat.load 0 [0xFB] {}⟩
    let cpu := (m.run 9).2.cpu
    cpu.Reachable (fun r => r.isRaw = false) ∧ cpu.regs.im = 2 ∧
    cpu.chain.map DaisyChain.service = some (some 1) ∧ cpu.Faultless := by
  intro chain start asking m cpu
  have hstart : start.Reachable fun r => r.isRaw = false :=
    .serve (r := .resetWith (some chain)) (.new {}) rfl rfl
  have hmode : (start.setRegister .im 7).Reachable fun r => r.isRaw = false :=
    .serve (r := .setRegister .im 7) hstart rfl rfl
  have hasking : asking.Reachable fun r => r.isRaw = false :=
    .serve (r := .modifyDevice 1 TidyLatch.ask) hmode rfl rfl
  have hreach : cpu.Reachable fun r => r.isRaw = false :=
    .run m.bus 9 (.serve (r := .setIrqLine .assert) hasking rfl rfl)
  exact ⟨hreach, by decide +kernel, by decide +kernel, hreach.faultless⟩

end Z80
