import Z80.Host
import Z80.Proofs.Image

/-!
A context or an image is taken over whole or refused. What is refused leaves
no trace, and what is taken over is all that the processor then shows. The
devices of the chain have no part in it.
-/
namespace Z80

variable {σ δ : Type}

namespace Cpu

theorem map_ofNat_toNat (index : Option Byte) :
    (index.map BitVec.toNat).map (BitVec.ofNat 8) = index := by
  cases index with
  | none => rfl
  | some i => rw [Option.map_some, Option.map_some, BitVec.ofNat_toNat, BitVec.setWidth_eq]

theorem eq_none_of_lt_zero {index : Option Byte} (h : ∀ i ∈ index, i.toNat < 0) :
    index = none :=
  Option.eq_none_iff_forall_not_mem.mpr fun i hi => absurd (h i hi) (Nat.not_lt_zero _)

/-- What a processor shows that has taken a context over. Without a chain it
has no place for the states of devices. -/
theorem context_withContext {cpu : Cpu δ} {ctx : Context} (h : cpu.Accepts ctx) :
    (cpu.withContext ctx).context =
      { ctx with
        daisyStates :=
          if cpu.chain.isSome then ctx.daisyStates else Vector.replicate 4 0 } := by
  cases hchain : cpu.chain with
  | some c =>
      simp only [context, withContext, hchain, Option.map_some, Option.bind_some,
        DaisyChain.restore, map_ofNat_toNat]
      rfl
  | none =>
      have hdevices : cpu.devices = 0 := by rw [devices, hchain]; rfl
      have hrequest := eq_none_of_lt_zero (hdevices ▸ h.request)
      have hservice := eq_none_of_lt_zero (hdevices ▸ h.service)
      simp only [context, withContext, hchain, hrequest, hservice]
      rfl

end Cpu

namespace Machine

/-- One machine is the other with a context taken over, and with nothing else
changed. -/
structure Restored (ctx : Context) (m next : Machine σ δ) : Prop where
  context : next.cpu.context =
    { ctx with
      daisyStates := if m.cpu.chain.isSome then ctx.daisyStates else Vector.replicate 4 0 }
  config : next.cpu.config = m.cpu.config
  total : next.cpu.total = m.cpu.total
  devices : next.cpu.chain.map DaisyChain.devices = m.cpu.chain.map DaisyChain.devices
  bus : next.bus = m.bus

theorem restored_withContext {m : Machine σ δ} {ctx : Context} (h : m.cpu.Accepts ctx) :
    Restored ctx m ⟨m.cpu.withContext ctx, m.bus⟩ := by
  refine ⟨Cpu.context_withContext h, rfl, rfl, ?_, rfl⟩
  simp only [Cpu.withContext, Option.map_map]
  rfl

variable [Bus σ] [Peripheral δ] {m : Machine σ δ} {ctx : Context} {bytes : List Byte}

theorem serve_setContext_of_accepts (h : m.cpu.Accepts ctx) :
    m.serve (.request (.setContext ctx)) = (.done, ⟨m.cpu.withContext ctx, m.bus⟩) := by
  simp only [serve, Cpu.serve, Cpu.apply_takeContext_of_accepts h, Reply.ofOutcome]

theorem serve_setContext_of_faults {e : ContextError} (h : m.cpu.Faults ctx e) :
    m.serve (.request (.setContext ctx)) = (.refused e, m) := by
  simp only [serve, Cpu.serve, Cpu.apply_takeContext_of_faults h, Reply.ofOutcome]

/-- An image that can be read does what the context in it does. -/
theorem serve_importImage_of_ok (h : Context.ofBytes bytes = .ok ctx) :
    m.serve (.request (.importImage bytes)) = m.serve (.request (.setContext ctx)) := by
  simp only [serve, Cpu.serve, Cpu.apply_takeImage_of_ok h]

theorem serve_importImage_of_error {e : ContextError} (h : Context.ofBytes bytes = .error e) :
    m.serve (.request (.importImage bytes)) = (.refused e, m) := by
  simp only [serve, Cpu.serve, Cpu.apply_takeImage_of_error h, Reply.ofOutcome]

theorem setContext_done_iff :
    (m.serve (.request (.setContext ctx))).1 = .done ↔
      ctx.regs.im.toNat ≤ 2 ∧ (∀ i ∈ ctx.daisyRequest, i.toNat < m.cpu.devices) ∧
        ∀ i ∈ ctx.daisyService, i.toNat < m.cpu.devices := by
  constructor
  · intro hdone
    rcases m.cpu.accepts_or_faults ctx with haccepts | ⟨e, hfaults⟩
    · exact ⟨haccepts.mode, haccepts.request, haccepts.service⟩
    · rw [serve_setContext_of_faults hfaults] at hdone
      cases hdone
  · rintro ⟨hmode, hrequest, hservice⟩
    rw [serve_setContext_of_accepts ⟨hmode, hrequest, hservice⟩]

theorem importImage_done_iff :
    (m.serve (.request (.importImage bytes))).1 = .done ↔
      ∃ read, Context.ofBytes bytes = .ok read ∧
        (m.serve (.request (.setContext read))).1 = .done := by
  cases hread : Context.ofBytes bytes with
  | error e =>
      rw [serve_importImage_of_error hread]
      constructor
      · intro hdone
        cases hdone
      · rintro ⟨_, hok, -⟩
        cases hok
  | ok read =>
      rw [serve_importImage_of_ok hread]
      simp only [Except.ok.injEq, exists_eq_left']

theorem setContext_refused_iff {e : ContextError} :
    (m.serve (.request (.setContext ctx))).1 = .refused e ↔ m.cpu.Faults ctx e := by
  constructor
  · intro hrefused
    rcases m.cpu.accepts_or_faults ctx with haccepts | ⟨d, hfaults⟩
    · rw [serve_setContext_of_accepts haccepts] at hrefused
      cases hrefused
    · rw [serve_setContext_of_faults hfaults] at hrefused
      cases hrefused
      exact hfaults
  · intro hfaults
    rw [serve_setContext_of_faults hfaults]

theorem importImage_refused_iff {e : ContextError} :
    (m.serve (.request (.importImage bytes))).1 = .refused e ↔
      Context.ofBytes bytes = .error e ∨
        ∃ read, Context.ofBytes bytes = .ok read ∧ m.cpu.Faults read e := by
  cases hread : Context.ofBytes bytes with
  | error d =>
      rw [serve_importImage_of_error hread]
      simp only [Reply.refused.injEq, Except.error.injEq, reduceCtorEq, false_and, exists_false,
        or_false]
  | ok read =>
      rw [serve_importImage_of_ok hread, setContext_refused_iff]
      simp only [reduceCtorEq, Except.ok.injEq, exists_eq_left', false_or]

/-- A machine that has refused a context has written nothing: every check
comes before the first write. -/
theorem setContext_unchanged (h : (m.serve (.request (.setContext ctx))).1 ≠ .done) :
    (m.serve (.request (.setContext ctx))).2 = m := by
  rcases m.cpu.accepts_or_faults ctx with haccepts | ⟨e, hfaults⟩
  · rw [serve_setContext_of_accepts haccepts] at h
    exact absurd rfl h
  · rw [serve_setContext_of_faults hfaults]

theorem importImage_unchanged (h : (m.serve (.request (.importImage bytes))).1 ≠ .done) :
    (m.serve (.request (.importImage bytes))).2 = m := by
  cases hread : Context.ofBytes bytes with
  | error e => rw [serve_importImage_of_error hread]
  | ok read =>
      rw [serve_importImage_of_ok hread] at h ⊢
      exact setContext_unchanged h

theorem restored_of_setContext_done (h : (m.serve (.request (.setContext ctx))).1 = .done) :
    Restored ctx m (m.serve (.request (.setContext ctx))).2 := by
  obtain ⟨hmode, hrequest, hservice⟩ := setContext_done_iff.mp h
  rw [serve_setContext_of_accepts ⟨hmode, hrequest, hservice⟩]
  exact restored_withContext ⟨hmode, hrequest, hservice⟩

/-- Taking a context over is all or nothing. A context is taken over if and
only if its mode exists and its indices name devices of the chain, and an image
if and only if it can be read and its context is taken over. Otherwise the
first fault is the answer, and the machine is as it was. A machine that has
taken a context over shows just that, and its configuration, its count of
T-states, its devices and its bus are as they were. What the devices would
answer or do makes no difference. -/
theorem restore_whole (m : Machine σ δ) (ctx : Context) (bytes : List Byte) :
    let byContext := m.serve (.request (.setContext ctx))
    let byImage := m.serve (.request (.importImage bytes))
    (byContext.1 = .done ↔
      ctx.regs.im.toNat ≤ 2 ∧ (∀ i ∈ ctx.daisyRequest, i.toNat < m.cpu.devices) ∧
        ∀ i ∈ ctx.daisyService, i.toNat < m.cpu.devices) ∧
    (byImage.1 = .done ↔
      ∃ read, Context.ofBytes bytes = .ok read ∧
        (m.serve (.request (.setContext read))).1 = .done) ∧
    (∀ e, byContext.1 = .refused e ↔ m.cpu.Faults ctx e) ∧
    (∀ e, byImage.1 = .refused e ↔
      Context.ofBytes bytes = .error e ∨
        ∃ read, Context.ofBytes bytes = .ok read ∧ m.cpu.Faults read e) ∧
    (byContext.1 ≠ .done → byContext.2 = m) ∧
    (byImage.1 ≠ .done → byImage.2 = m) ∧
    (byContext.1 = .done → Restored ctx m byContext.2) ∧
    (∀ read, Context.ofBytes bytes = .ok read → byImage.1 = .done → Restored read m byImage.2) ∧
    ∀ other : Peripheral δ,
      @serve σ δ _ other m (.request (.setContext ctx)) = byContext ∧
        @serve σ δ _ other m (.request (.importImage bytes)) = byImage := by
  intro byContext byImage
  refine ⟨setContext_done_iff, importImage_done_iff, fun _ => setContext_refused_iff,
    fun _ => importImage_refused_iff, setContext_unchanged, importImage_unchanged,
    restored_of_setContext_done, ?_, fun _ => ⟨rfl, rfl⟩⟩
  intro read hread hdone
  have himage : byImage = m.serve (.request (.setContext read)) := serve_importImage_of_ok hread
  rw [himage] at hdone ⊢
  exact restored_of_setContext_done hdone

end Machine
end Z80
