import Z80.Context

/-!
Contexts as images. A context whose interrupt mode exists and whose indices
are small is read back from its own image. A processor takes a context over
exactly when its mode exists and its indices name devices, and only then writes
anything.
-/
namespace Z80

namespace Context

/-- The context has an image of its own. -/
structure Storable (ctx : Context) : Prop where
  mode : ctx.regs.im.toNat ≤ 2
  request : ∀ i ∈ ctx.daisyRequest, i.toNat < maxDevices
  service : ∀ i ∈ ctx.daisyService, i.toNat < maxDevices

theorem indexOfByte_indexToByte {index : Option Byte} (h : ∀ i ∈ index, i.toNat < maxDevices) :
    indexOfByte (indexToByte index) = .ok index := by
  cases index with
  | none => rfl
  | some i =>
      have hlt : i.toNat < maxDevices := h i rfl
      have hne : i ≠ noDevice := by
        rintro rfl
        exact absurd hlt (by decide)
      have hbyte : indexToByte (some i) = i := rfl
      rw [hbyte, indexOfByte, if_neg hne, if_pos hlt]

theorem latches_getLsbD (ctx : Context) :
    ctx.latches.getLsbD 0 = ctx.regs.iff1 ∧ ctx.latches.getLsbD 1 = ctx.regs.iff2 ∧
      ctx.latches.getLsbD 2 = ctx.regs.halted ∧ ctx.latches.getLsbD 3 = ctx.eiDelay ∧
        ctx.latches.getLsbD 4 = ctx.afterLdAIR ∧ ctx.latches.getLsbD 5 = ctx.nmiPending := by
  simp only [latches]
  generalize ctx.regs.iff1 = iff1, ctx.regs.iff2 = iff2, ctx.regs.halted = halted,
    ctx.eiDelay = delay, ctx.afterLdAIR = system, ctx.nmiPending = pending
  revert iff1 iff2 halted delay system pending
  decide

theorem ofBytes_toBytes {ctx : Context} (h : ctx.Storable) : ofBytes ctx.toBytes = .ok ctx := by
  obtain ⟨hiff1, hiff2, hhalted, hdelay, hsystem, hpending⟩ := ctx.latches_getLsbD
  have hmode : ¬2 < ctx.regs.im.toNat := Nat.not_lt.mpr h.mode
  rw [toBytes, ofBytes, if_neg hmode, indexOfByte_indexToByte h.request,
    indexOfByte_indexToByte h.service, slots_eq]
  simp only [hiff1, hiff2, hhalted, hdelay, hsystem, hpending, Flags.ofByte_toByte,
    Word.ofBytes_high_low, LineState.ofByte_toByte]
  rfl

end Context

namespace Cpu

variable {δ : Type}

/-- What a processor asks of a context before it takes it over. -/
structure Accepts (cpu : Cpu δ) (ctx : Context) : Prop where
  mode : ctx.regs.im.toNat ≤ 2
  request : ∀ i ∈ ctx.daisyRequest, i.toNat < cpu.devices
  service : ∀ i ∈ ctx.daisyService, i.toNat < cpu.devices

/-- What a processor finds wrong with a context. Of several faults the first
one counts. -/
inductive Faults (cpu : Cpu δ) (ctx : Context) : ContextError → Prop
  | mode : 2 < ctx.regs.im.toNat → Faults cpu ctx (.invalidMode ctx.regs.im)
  | request {i : Byte} : ctx.regs.im.toNat ≤ 2 → i ∈ ctx.daisyRequest →
    cpu.devices ≤ i.toNat → Faults cpu ctx (.invalidDaisyIndex i cpu.devices)
  | service {i : Byte} : ctx.regs.im.toNat ≤ 2 →
    (∀ j ∈ ctx.daisyRequest, j.toNat < cpu.devices) → i ∈ ctx.daisyService →
    cpu.devices ≤ i.toNat → Faults cpu ctx (.invalidDaisyIndex i cpu.devices)

theorem index_cases (devices : Nat) (index : Option Byte) :
    (∀ i ∈ index, i.toNat < devices) ∨ ∃ i ∈ index, devices ≤ i.toNat := by
  cases index with
  | none => exact .inl fun _ hi => nomatch hi
  | some i =>
      simp only [Option.mem_some_iff, forall_eq', exists_eq_left']
      exact Nat.lt_or_ge i.toNat devices

theorem accepts_or_faults (cpu : Cpu δ) (ctx : Context) :
    cpu.Accepts ctx ∨ ∃ e, cpu.Faults ctx e := by
  rcases Nat.lt_or_ge 2 ctx.regs.im.toNat with hmode | hmode
  · exact .inr ⟨_, .mode hmode⟩
  rcases index_cases cpu.devices ctx.daisyRequest with hrequest | ⟨i, hi, hle⟩
  · rcases index_cases cpu.devices ctx.daisyService with hservice | ⟨i, hi, hle⟩
    · exact .inl ⟨hmode, hrequest, hservice⟩
    · exact .inr ⟨_, .service hmode hrequest hi hle⟩
  · exact .inr ⟨_, .request hmode hi hle⟩

/-- The processor in another state. An attached chain keeps its devices and
takes the latches of the context. -/
def withContext (ctx : Context) (cpu : Cpu δ) : Cpu δ :=
  { cpu with
    regs := ctx.regs
    q := ctx.q
    eiDelay := ctx.eiDelay
    afterLdAIR := ctx.afterLdAIR
    irqLine := ctx.irqLine
    nmiLine := ctx.nmiLine
    nmiPending := ctx.nmiPending
    chain := cpu.chain.map <| DaisyChain.restore ctx.daisyStates
      (ctx.daisyRequest.map BitVec.toNat) (ctx.daisyService.map BitVec.toNat) }

namespace Update

variable {α β : Type} {u : Update δ α} {g : α → Update δ β} {cpu next : Cpu δ}

theorem apply_bind_of_ok {a : α} (h : u.apply cpu = (.ok a, next)) :
    (u >>= g).apply cpu = (g a).apply next := by
  have hbind : (u >>= g).apply cpu = ExceptT.bindCont g (u.apply cpu).1 (u.apply cpu).2 := rfl
  rw [hbind, h]
  rfl

/-- What was written before a failure is what remains. -/
theorem apply_bind_of_error {e : ContextError} (h : u.apply cpu = (.error e, next)) :
    (u >>= g).apply cpu = (.error e, next) := by
  have hbind : (u >>= g).apply cpu = ExceptT.bindCont g (u.apply cpu).1 (u.apply cpu).2 := rfl
  rw [hbind, h]
  rfl

end Update

section

variable {cpu : Cpu δ} {ctx : Context} {devices : Nat} {index : Option Byte}

theorem apply_checkIndex_of_lt (h : ∀ i ∈ index, i.toNat < devices) (cpu : Cpu δ) :
    (checkIndex devices index).apply cpu = (.ok (), cpu) := by
  cases index with
  | none => rfl
  | some i =>
      rw [checkIndex, if_pos (h i rfl)]
      rfl

theorem apply_checkIndex_of_le {i : Byte} (hi : i ∈ index) (h : devices ≤ i.toNat)
    (cpu : Cpu δ) :
    (checkIndex devices index).apply cpu = (.error (.invalidDaisyIndex i devices), cpu) := by
  cases hi
  rw [checkIndex, if_neg (Nat.not_lt.mpr h)]
  rfl

theorem apply_takeContext_of_accepts (h : cpu.Accepts ctx) :
    (takeContext ctx).apply cpu = (.ok (), cpu.withContext ctx) := by
  have hmode : ¬2 < ctx.regs.im.toNat := Nat.not_lt.mpr h.mode
  have hget : (get : Update δ (Cpu δ)).apply cpu = (.ok cpu, cpu) := rfl
  simp only [takeContext, if_neg hmode]
  rw [Update.apply_bind_of_ok hget, Update.apply_bind_of_ok (apply_checkIndex_of_lt h.request cpu),
    Update.apply_bind_of_ok (apply_checkIndex_of_lt h.service cpu)]
  rfl

theorem apply_takeContext_of_faults {e : ContextError} (h : cpu.Faults ctx e) :
    (takeContext ctx).apply cpu = (.error e, cpu) := by
  have hget : (get : Update δ (Cpu δ)).apply cpu = (.ok cpu, cpu) := rfl
  cases h with
  | mode hmode =>
      simp only [takeContext, if_pos hmode]
      rfl
  | request hmode hi hle =>
      simp only [takeContext, if_neg (Nat.not_lt.mpr hmode)]
      rw [Update.apply_bind_of_ok hget,
        Update.apply_bind_of_error (apply_checkIndex_of_le hi hle cpu)]
  | service hmode hrequest hi hle =>
      simp only [takeContext, if_neg (Nat.not_lt.mpr hmode)]
      rw [Update.apply_bind_of_ok hget, Update.apply_bind_of_ok (apply_checkIndex_of_lt hrequest cpu),
        Update.apply_bind_of_error (apply_checkIndex_of_le hi hle cpu)]

theorem apply_takeImage_of_ok {bytes : List Byte} (h : Context.ofBytes bytes = .ok ctx)
    (cpu : Cpu δ) : (takeImage bytes).apply cpu = (takeContext ctx).apply cpu := by
  have hread : (liftM (Context.ofBytes bytes) : Update δ Context).apply cpu = (.ok ctx, cpu) := by
    rw [h]
    rfl
  rw [takeImage, Update.apply_bind_of_ok hread]

theorem apply_takeImage_of_error {bytes : List Byte} {e : ContextError}
    (h : Context.ofBytes bytes = .error e) (cpu : Cpu δ) :
    (takeImage bytes).apply cpu = (.error e, cpu) := by
  have hread : (liftM (Context.ofBytes bytes) : Update δ Context).apply cpu = (.error e, cpu) := by
    rw [h]
    rfl
  rw [takeImage, Update.apply_bind_of_error hread]

/-- A processor takes a context over whole, or it stays as it is. So what holds
before and with every context that is accepted holds afterwards. -/
theorem takeContext_keeps {P : Cpu δ → Prop} (h : P cpu)
    (htaken : ∀ ctx, cpu.Accepts ctx → P (cpu.withContext ctx)) (ctx : Context) :
    P ((takeContext ctx).apply cpu).2 := by
  rcases cpu.accepts_or_faults ctx with haccepts | ⟨e, hfaults⟩
  · rw [apply_takeContext_of_accepts haccepts]
    exact htaken ctx haccepts
  · rw [apply_takeContext_of_faults hfaults]
    exact h

theorem takeImage_keeps {P : Cpu δ → Prop} (h : P cpu)
    (htaken : ∀ ctx, cpu.Accepts ctx → P (cpu.withContext ctx)) (bytes : List Byte) :
    P ((takeImage bytes).apply cpu).2 := by
  cases hread : Context.ofBytes bytes with
  | error e =>
      rw [apply_takeImage_of_error hread]
      exact h
  | ok ctx =>
      rw [apply_takeImage_of_ok hread]
      exact takeContext_keeps h htaken ctx

theorem setContext_of_accepts (h : cpu.Accepts ctx) :
    cpu.setContext ctx = .ok (cpu.withContext ctx) := by
  rw [setContext, Update.result, apply_takeContext_of_accepts h]

theorem importImage_toBytes (h : ctx.Storable) (cpu : Cpu δ) :
    cpu.importImage ctx.toBytes = cpu.setContext ctx := by
  simp only [importImage, setContext, Update.result]
  rw [apply_takeImage_of_ok (Context.ofBytes_toBytes h)]

end

end Cpu
end Z80
