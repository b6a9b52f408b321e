import Z80.Bus.Flat
import Z80.Daisy.StateLatch
import Z80.Proofs.ChainRange
import Z80.Proofs.History

/-!
Restored processors. An image leaves out the configuration, the devices and
the count of T-states. Into a processor that has the first two, the image of
another one brings all the rest, so that a host can tell the two apart by
their counts alone.
-/
namespace Z80

variable {σ δ : Type}

/-- The observation on a processor that had counted some T-states more. -/
def Observation.after (start : Nat) (o : Observation σ δ) : Observation σ δ :=
  { o with total := o.total + start }

namespace DaisyChain

theorem toNat_index {c : DaisyChain δ} {i : Nat} (h : i < c.size) :
    (BitVec.ofNat 8 i).toNat = i := by
  have hlength : c.size ≤ 4 := c.length_le
  rw [BitVec.toNat_ofNat]
  exact Nat.mod_eq_of_lt (by omega)

theorem map_toNat_index {c : DaisyChain δ} {index : Option Nat} (h : ∀ i ∈ index, i < c.size) :
    (index.map (BitVec.ofNat 8)).map BitVec.toNat = index := by
  cases index with
  | none => rfl
  | some i => exact congrArg some (toNat_index (h i rfl))

theorem restore_eq {c d : DaisyChain δ} (h : c.InRange) (hdevices : d.devices = c.devices) :
    d.restore c.states ((c.request.map (BitVec.ofNat 8)).map BitVec.toNat)
      ((c.service.map (BitVec.ofNat 8)).map BitVec.toNat) = c := by
  rw [map_toNat_index h.request, map_toNat_index h.service]
  cases c
  cases d
  cases hdevices
  rfl

end DaisyChain

namespace Cpu

theorem devices_le (cpu : Cpu δ) : cpu.devices ≤ maxDevices := by
  cases hchain : cpu.chain with
  | none =>
      simp only [devices, hchain, Option.map_none, Option.getD_none]
      exact Nat.zero_le _
  | some c =>
      simp only [devices, hchain, Option.map_some, Option.getD_some]
      exact c.length_le

theorem devices_congr {cpu other : Cpu δ}
    (h : other.chain.map DaisyChain.devices = cpu.chain.map DaisyChain.devices) :
    other.devices = cpu.devices := by
  have hsize (chain : Option (DaisyChain δ)) :
      chain.map DaisyChain.size = (chain.map DaisyChain.devices).map List.length := by
    rw [Option.map_map]
    rfl
  simp only [devices, hsize, h]

theorem index_lt_devices {cpu : Cpu δ} (h : cpu.ChainInRange) {index : DaisyChain δ → Option Nat}
    (hindex : ∀ c : DaisyChain δ, c.InRange → ∀ i ∈ index c, i < c.size) :
    ∀ b ∈ (cpu.chain.bind index).map (BitVec.ofNat 8), b.toNat < cpu.devices := by
  intro b hb
  obtain ⟨i, hi, rfl⟩ := Option.map_eq_some_iff.mp hb
  obtain ⟨c, hc, hic⟩ := Option.bind_eq_some_iff.mp hi
  have hlt : i < c.size := hindex c (h c hc) i hic
  have hsize : cpu.devices = c.size := by
    simp only [devices, hc, Option.map_some, Option.getD_some]
  rw [DaisyChain.toNat_index hlt, hsize]
  exact hlt

theorem accepts_context {cpu other : Cpu δ} (h : cpu.ChainInRange)
    (hmode : cpu.regs.im.toNat ≤ 2) (hdevices : other.devices = cpu.devices) :
    other.Accepts cpu.context where
  mode := hmode
  request := hdevices ▸ index_lt_devices h fun _ hc => hc.request
  service := hdevices ▸ index_lt_devices h fun _ hc => hc.service

theorem Accepts.storable {cpu : Cpu δ} {ctx : Context} (h : cpu.Accepts ctx) : ctx.Storable where
  mode := h.mode
  request i hi := Nat.lt_of_lt_of_le (h.request i hi) cpu.devices_le
  service i hi := Nat.lt_of_lt_of_le (h.service i hi) cpu.devices_le

theorem withContext_context {cpu other : Cpu δ} (h : cpu.ChainInRange)
    (hconfig : other.config = cpu.config)
    (hdevices : other.chain.map DaisyChain.devices = cpu.chain.map DaisyChain.devices) :
    other.withContext cpu.context = { cpu with total := other.total } := by
  have hchain : (other.withContext cpu.context).chain = cpu.chain := by
    simp only [withContext, context]
    cases hcpu : cpu.chain with
    | none =>
        rw [hcpu] at hdevices
        rw [Option.map_eq_none_iff.mp hdevices]
        rfl
    | some c =>
        rw [hcpu] at hdevices
        obtain ⟨d, hd, hsame⟩ := Option.map_eq_some_iff.mp hdevices
        rw [hd]
        exact congrArg some (DaisyChain.restore_eq (h c hcpu) hsame)
  have hself : other.withContext cpu.context =
      { cpu with
        config := other.config
        total := other.total
        chain := (other.withContext cpu.context).chain } := rfl
  rw [hself, hchain, hconfig]

/-- The image of a processor turns another one with the same configuration
and devices into the same processor, but for the count. -/
theorem importImage_exportImage {cpu other : Cpu δ} (h : cpu.ChainInRange)
    (hmode : cpu.regs.im.toNat ≤ 2) (hconfig : other.config = cpu.config)
    (hdevices : other.chain.map DaisyChain.devices = cpu.chain.map DaisyChain.devices) :
    other.importImage cpu.exportImage = .ok { cpu with total := other.total } := by
  have haccepts := accepts_context h hmode (devices_congr hdevices)
  rw [exportImage, importImage_toBytes haccepts.storable, setContext_of_accepts haccepts,
    withContext_context h hconfig hdevices]

end Cpu

namespace Machine

variable [Bus σ] [Peripheral δ]

theorem run_elapse (k : Nat) (budget : BitVec 32) (m : Machine σ δ) :
    (m.elapse k).run budget = ((m.run budget).1, (m.run budget).2.elapse k) := by
  simp only [run, runFor_elapse, elapse_total, Nat.add_sub_add_right]

theorem serve_elapse (k : Nat) (call : Call δ) (m : Machine σ δ) :
    (m.elapse k).serve call = ((m.serve call).1, (m.serve call).2.elapse k) := by
  cases call with
  | run budget => simp only [serve, run_elapse]
  | request r =>
      have hserve : (m.elapse k).cpu.serve r = _ :=
        Cpu.serve_relabel id (· + k) (.inl rfl) m.cpu
      simp only [serve, hserve]
      rfl

theorem history_elapse (k : Nat) (calls : List (Call δ)) (m : Machine σ δ) :
    (m.elapse k).history calls = (m.history calls).map (Observation.after k) := by
  induction calls generalizing m with
  | nil => rfl
  | cons call calls ih =>
      simp only [history, serve_elapse, ih]
      cases call.isConfig <;> rfl

end Machine

namespace Cpu

variable [Peripheral δ]

/-- A restored processor continues identically. The image of a processor that
a host can reach is accepted by every other with the same configuration and
devices, and from then on the two have one history, counted from each one's
own start. -/
theorem importImage_history {cpu other : Cpu δ} (h : cpu.Reachable fun _ => True)
    (hmode : cpu.regs.im.toNat ≤ 2) (hconfig : other.config = cpu.config)
    (hdevices : other.chain.map DaisyChain.devices = cpu.chain.map DaisyChain.devices) :
    ∃ restored, other.importImage cpu.exportImage = .ok restored ∧
      restored.context = cpu.context ∧
      ∀ {σ : Type} [Bus σ] (bus : σ) (calls : List (Call δ)), ∃ story : List (Observation σ δ),
        (Machine.mk cpu bus).history calls = story.map (Observation.after cpu.total) ∧
        (Machine.mk restored bus).history calls =
          story.map (Observation.after restored.total) := by
  refine ⟨{ cpu with total := other.total },
    importImage_exportImage h.chainInRange hmode hconfig hdevices, rfl, ?_⟩
  intro σ _ bus calls
  -- Both are the same processor, at a count of zero, some T-states later.
  have hstart (k : Nat) : Machine.mk { cpu with total := k } bus =
      (Machine.mk { cpu with total := 0 } bus).elapse k := by
    simp only [Machine.elapse, Nat.zero_add]
  refine ⟨(Machine.mk { cpu with total := 0 } bus).history calls, ?_, ?_⟩
  · rw [← Machine.history_elapse, ← hstart cpu.total]
  · rw [← Machine.history_elapse, ← hstart other.total]

/-- A device waits for its interrupt in mode 2, and the other processor has
seen an edge of its NMI line. -/
theorem importImage_history_latch :
    let device : StateLatch := { vector := 0x10, resetTo := 1 }
    let chain : DaisyChain StateLatch := { devices := [device], length_le := by decide }
    let cpu := ((({} : Cpu StateLatch).resetWith (some chain)).setRegister .im 2).setIrqLine .assert
    let other := (({ total := 7 } : Cpu StateLatch).resetWith (some chain)).setNmiLine .assert
    cpu.Reachable (fun _ => True) ∧ cpu.regs.im.toNat ≤ 2 ∧ other.config = cpu.config ∧
    other.chain.map DaisyChain.devices = cpu.chain.map DaisyChain.devices ∧
    ∃ restored, other.importImage cpu.exportImage = .ok restored ∧
      restored.context = cpu.context ∧
      ∀ (bus : Bus.Flat) (calls : List (Call StateLatch)),
        ∃ story : List (Observation Bus.Flat StateLatch),
          (Machine.mk cpu bus).history calls = story.map (Observation.after cpu.total) ∧
          (Machine.mk restored bus).history calls =
            story.map (Observation.after restored.total) := by
  intro device chain cpu other
  have hfresh : (({} : Cpu StateLatch).resetWith (some chain)).Reachable fun _ => True :=
    .serve (r := .resetWith (some chain)) (.new {}) trivial rfl
  have hmode2 : ((({} : Cpu StateLatch).resetWith (some chain)).setRegister .im 2).Reachable
      fun _ => True :=
    .serve (r := .setRegister .im 2) hfresh trivial rfl
  have hreach : cpu.Reachable fun _ => True :=
    .serve (r := .setIrqLine .assert) hmode2 trivial rfl
  have hmode : cpu.regs.im.toNat ≤ 2 := by decide
  have hconfig : other.config = cpu.config := rfl
  have hdevices : other.chain.map DaisyChain.devices = cpu.chain.map DaisyChain.devices := rfl
  obtain ⟨restored, himport, hcontext, hhistory⟩ :=
    importImage_history hreach hmode hconfig hdevices
  exact ⟨hreach, hmode, hconfig, hdevices, restored, himport, hcontext, hhistory⟩

end Cpu
end Z80
