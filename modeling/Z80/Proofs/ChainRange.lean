import Z80.Host
import Z80.Proofs.Accounting
import Z80.Proofs.Boundary
import Z80.Proofs.Image

/-!
The indices of a daisy chain. Whatever a host does, the device that a chain
is to acknowledge and the one that is to hear of the next return are devices
of that chain.
-/
namespace Z80

variable {σ δ : Type}

namespace DaisyChain

/-- The two indices, where they are present, are those of devices. -/
structure InRange (c : DaisyChain δ) : Prop where
  request : ∀ i ∈ c.request, i < c.size
  service : ∀ i ∈ c.service, i < c.size

theorem firstRequest_lt {states : List Byte} {i : Nat} (h : i ∈ firstRequest states) :
    i < states.length := by
  induction states generalizing i with
  | nil => cases h
  | cons s rest ih =>
      simp only [firstRequest] at h
      split at h
      · cases h
        exact Nat.succ_pos _
      · split at h
        · cases h
        · obtain ⟨j, hj, rfl⟩ := Option.map_eq_some_iff.mp h
          exact Nat.succ_lt_succ (ih hj)

theorem firstInService_lt {states : List Byte} {i : Nat} (h : i ∈ firstInService states) :
    i < states.length :=
  (List.findIdx?_eq_some_iff_getElem.mp h).1

theorem InRange.modifyDevice {c : DaisyChain δ} (h : c.InRange) (i : Nat) (g : δ → δ) :
    (c.modifyDevice i g).InRange := by
  have hsize : (c.modifyDevice i g).size = c.size := List.length_modify ..
  exact ⟨fun i hi => hsize ▸ h.request i hi, fun i hi => hsize ▸ h.service i hi⟩

theorem inRange_fresh {c : DaisyChain δ} (hrequest : c.request = none)
    (hservice : c.service = none) : c.InRange := by
  constructor
  · rw [hrequest]
    exact fun _ hi => nomatch hi
  · rw [hservice]
    exact fun _ hi => nomatch hi

variable [Peripheral δ]

theorem inRange_arbitrate (c : DaisyChain δ) : c.arbitrate.InRange := by
  constructor
  · intro i hi
    have hlt := firstRequest_lt hi
    rwa [List.length_map] at hlt
  · intro i hi
    have hlt := firstInService_lt hi
    rwa [List.length_map] at hlt

theorem InRange.acknowledge {c : DaisyChain δ} (h : c.InRange) : c.acknowledge.2.InRange := by
  simp only [DaisyChain.acknowledge]
  split
  · exact h
  · split
    · exact h
    · exact inRange_arbitrate _

theorem InRange.reti {c : DaisyChain δ} (h : c.InRange) : c.reti.InRange := by
  simp only [DaisyChain.reti]
  split
  · exact h
  · exact inRange_arbitrate _

end DaisyChain

namespace Cpu

/-- The indices of an attached chain are those of devices. -/
def ChainInRange (cpu : Cpu δ) : Prop :=
  ∀ chain ∈ cpu.chain, chain.InRange

theorem chainInRange_map {cpu next : Cpu δ} {g : DaisyChain δ → DaisyChain δ}
    (h : cpu.ChainInRange) (hg : ∀ c : DaisyChain δ, c.InRange → (g c).InRange)
    (hnext : next.chain = cpu.chain.map g) : next.ChainInRange :=
  forall_chain_map h hg hnext

theorem chainInRange_congr {cpu next : Cpu δ} (h : cpu.ChainInRange)
    (hnext : next.chain = cpu.chain) : next.ChainInRange :=
  forall_chain_congr h hnext

theorem chainInRange_setSlotState {cpu : Cpu δ} (h : cpu.ChainInRange) (slot : Fin 4) (v : Byte) :
    (cpu.setSlotState slot v).ChainInRange :=
  chainInRange_map (g := DaisyChain.setState slot v) h
    (fun _ hc => ⟨hc.request, hc.service⟩) rfl

/-- A context is only taken over with indices of devices. -/
theorem Accepts.chainInRange {cpu : Cpu δ} {ctx : Context} (h : cpu.Accepts ctx) :
    (cpu.withContext ctx).ChainInRange := by
  intro chain hchain
  obtain ⟨c, hc, rfl⟩ := Option.map_eq_some_iff.mp hchain
  have hdevices : cpu.devices = c.size := by
    simp only [devices, hc, Option.map_some, Option.getD_some]
  constructor
  · intro i hi
    obtain ⟨b, hb, rfl⟩ := Option.map_eq_some_iff.mp hi
    exact hdevices ▸ h.request b hb
  · intro i hi
    obtain ⟨b, hb, rfl⟩ := Option.map_eq_some_iff.mp hi
    exact hdevices ▸ h.service b hb

end Cpu

namespace Machine

variable [Bus σ] [Peripheral δ]

theorem chainInRange_runFor (remaining : Nat) {m : Machine σ δ} (h : m.cpu.ChainInRange) :
    (m.runFor remaining).cpu.ChainInRange := by
  apply runFor_invariant (P := fun m => m.cpu.ChainInRange) _ remaining h
  intro remaining m h
  rcases Exec.advance_chain remaining m with hchain | hchain | hchain
  · exact Cpu.chainInRange_congr h hchain
  · exact Cpu.chainInRange_map h (fun _ hc => hc.reti) hchain
  · apply Cpu.chainInRange_map h _ hchain
    intro c hc
    split
    · exact hc
    · exact hc.acknowledge

end Machine

namespace Cpu

variable [Peripheral δ]

theorem chainInRange_setIrqLine {cpu : Cpu δ} (h : cpu.ChainInRange) (s : LineState) :
    (cpu.setIrqLine s).ChainInRange := by
  cases hs : s.isActive with
  | true =>
      refine chainInRange_map h (fun c _ => c.inRange_arbitrate) ?_
      simp only [setIrqLine, hs, if_true]
  | false =>
      refine chainInRange_congr h ?_
      simp only [setIrqLine, hs, Bool.false_eq_true, if_false]

theorem chainInRange_setRegister {cpu : Cpu δ} (h : cpu.ChainInRange) (reg : RegisterName)
    (v : Word) : (cpu.setRegister reg v).ChainInRange := by
  cases reg with
  | irqState => exact chainInRange_setIrqLine h _
  | dc0 | dc1 | dc2 | dc3 => exact chainInRange_setSlotState h _ _
  | _ => exact chainInRange_congr h rfl

theorem chainInRange_resetWith (chain : Option (DaisyChain δ)) (cpu : Cpu δ) :
    (cpu.resetWith chain).ChainInRange := by
  intro fresh hfresh
  obtain ⟨c, -, rfl⟩ := Option.map_eq_some_iff.mp hfresh
  exact DaisyChain.inRange_fresh rfl rfl

theorem chainInRange_serve {cpu next : Cpu δ} {r : Request δ} (h : cpu.ChainInRange)
    (hserve : (cpu.serve r).2 = next) : next.ChainInRange := by
  subst hserve
  cases r with
  | setContext ctx => exact takeContext_keeps h (fun _ haccepts => haccepts.chainInRange) ctx
  | importImage bytes => exact takeImage_keeps h (fun _ haccepts => haccepts.chainInRange) bytes
  | setIrqLine s => exact chainInRange_setIrqLine h s
  | setRegister reg v => exact chainInRange_setRegister h reg v
  | setNmiLine _ | setConfig _ | modifyRegs _ => exact chainInRange_congr h rfl
  | reset => exact chainInRange_resetWith cpu.chain cpu
  | resetWith chain => exact chainInRange_resetWith chain cpu
  | modifyDevice i g =>
      exact chainInRange_map (g := DaisyChain.modifyDevice i g) h
        (fun _ hc => hc.modifyDevice i g) rfl
  | replaceChain devices length_le =>
      exact chainInRange_map (g := fun _ => { devices, length_le }) h
        (fun _ _ => DaisyChain.inRange_fresh rfl rfl) rfl

theorem Reachable.chainInRange {allowed : Request δ → Prop} {cpu : Cpu δ}
    (h : cpu.Reachable allowed) : cpu.ChainInRange := by
  induction h with
  | new config => exact fun _ hchain => nomatch hchain
  | run bus budget _ ih => exact Machine.chainInRange_runFor budget.toNat ih
  | serve _ _ hserve ih => exact chainInRange_serve ih hserve
  | exchange _ _ _ hgiven _ ih =>
      intro chain hchain
      cases hchain
      exact ih _ hgiven

end Cpu
end Z80
