import Z80.Proofs.Devices
import Z80.Proofs.Refresh

/-!
The poll at a return from interrupt. The chain reads its devices anew when it
passes the return on to a device, so what the host did to them meanwhile is
seen. A return that no device waits for is not passed on, and nothing is polled.
-/
namespace Z80

variable {σ δ : Type}

open Peripheral

namespace DaisyChain

variable [Peripheral δ]

theorem polled_reti {c : DaisyChain δ} {i : Nat} (h : c.service = some i) : c.reti.Polled := by
  simp only [reti, h]
  exact polled_arbitrate _

end DaisyChain

namespace Machine

variable [Bus σ] [Peripheral δ]

/-- The opcodes tell a return from interrupt from every other instruction. -/
theorem step_reti_iff (m : Machine σ δ) :
    (Exec.step m).1.1.instr = .reti ↔ [0xED, 0x4D] <:+ m.opcodes := by
  obtain ⟨n, operands, hreads⟩ := m.exists_reads_opcodes
  exact hreads.returns_iff

theorem stepAndSkip_reti {m : Machine σ δ} (h : [0xED, 0x4D] <:+ m.opcodes) (remaining : Nat) :
    (Exec.stepAndSkip remaining m).2.cpu.chain = m.cpu.chain.map DaisyChain.reti := by
  rw [Exec.stepAndSkip_frame]
  change (Exec.step m).2.cpu.chain = _
  rw [Exec.step_frame, if_pos (m.step_reti_iff.mpr h)]
  rfl

/-- A return from interrupt that a device waits for is passed on to it, and then
the chain polls its devices. One that no device waits for leaves the chain alone. -/
theorem reti_polls {m : Machine σ δ} {c : DaisyChain δ} (hchain : m.cpu.chain = some c)
    (hreti : [0xED, 0x4D] <:+ m.opcodes) (remaining : Nat) :
    ∃ next, (Exec.stepAndSkip remaining m).2.cpu.chain = some next ∧
      (∀ i, c.service = some i →
        next.devices = c.devices.modify i interruptReti ∧ next.Polled) ∧
      (c.service = none → next = c) := by
  refine ⟨c.reti, ?_, fun i hi => ?_, DaisyChain.reti_none⟩
  · rw [stepAndSkip_reti hreti, hchain]
    rfl
  · exact ⟨DaisyChain.devices_reti hi, DaisyChain.polled_reti hi⟩

/-- Behind a prefix, one device under service and another one whose request was
raised behind the chain's back. -/
theorem reti_polls_prefixed :
    let waiting : StateLatch := { vector := 0x10, state := 0x02 }
    let asking : StateLatch := { vector := 0x20, state := 0x01 }
    let c : DaisyChain StateLatch :=
      { devices := [waiting, asking], length_le := by decide, service := some 0 }
    let m : Machine Bus.Flat StateLatch :=
      ⟨{ chain := some c }, Bus.Flat.load 0 [0xDD, 0xED, 0x4D] {}⟩
    m.cpu.chain = some c ∧ [0xED, 0x4D] <:+ m.opcodes ∧
    ∃ next, (Exec.stepAndSkip 20 m).2.cpu.chain = some next ∧
      next.devices = [{ waiting with state := 0x00, retis := 1 }, asking] ∧ next.Polled ∧
      next.service = none ∧ next.request = some 1 := by
  intro waiting asking c m
  have hreti : [0xED, 0x4D] <:+ m.opcodes := by
    decide +kernel
  obtain ⟨next, hnext, hpolls, -⟩ := reti_polls (m := m) (c := c) rfl hreti 20
  obtain ⟨hmodified, hpolled⟩ := hpolls 0 rfl
  have hdevices : next.devices = [{ waiting with state := 0x00, retis := 1 }, asking] :=
    hmodified.trans (by decide +kernel)
  have hrequest : next.request = some 1 := by
    rw [hpolled.request, hdevices]
    decide +kernel
  refine ⟨rfl, hreti, next, hnext, hdevices, hpolled, ?_, hrequest⟩
  cases hservice : next.service with
  | none => rfl
  | some i =>
      rw [hpolled.service, hdevices] at hservice
      match i with
      | 0 | 1 => exact absurd hservice.1 (by decide +kernel)
      | _ + 2 => cases hservice.1

/-- A device has raised a request since the last poll and none is under service.
The return leaves the chain without a request. -/
theorem reti_not_polled :
    let c : DaisyChain StateLatch :=
      { devices := [{ vector := 0x10, state := 0x01 }], length_le := by decide }
    let m : Machine Bus.Flat StateLatch :=
      ⟨{ chain := some c }, Bus.Flat.load 0 [0xED, 0x4D] {}⟩
    m.cpu.chain = some c ∧ [0xED, 0x4D] <:+ m.opcodes ∧
    ¬∃ next, (Exec.stepAndSkip 14 m).2.cpu.chain = some next ∧ next.Polled := by
  intro c m
  have hreti : [0xED, 0x4D] <:+ m.opcodes := by
    decide +kernel
  refine ⟨rfl, hreti, ?_⟩
  rintro ⟨next, hnext, hpolled⟩
  rw [stepAndSkip_reti hreti] at hnext
  cases hnext
  have hrequest := (hpolled.request 0).mpr ⟨rfl, fun j hj => absurd hj (Nat.not_lt_zero j)⟩
  cases hrequest

end Machine
end Z80
