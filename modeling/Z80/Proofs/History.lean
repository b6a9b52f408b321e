import Z80.Host
import Z80.Bus.Flat
import Z80.Daisy.StateLatch
import Z80.Proofs.Acceleration
import Z80.Proofs.Image

/-!
What a host can tell. The configuration is seen in no history: on a plain
bus the accelerator changes nothing but the time that a run takes on the
host.
-/
namespace Z80

variable {σ δ : Type}

/-- The request does not set the configuration, or the label leaves it be. -/
def Request.Respects (c : Config → Config) (r : Request δ) : Prop :=
  c = id ∨ (Call.request r).isConfig = false

theorem Call.eq_setConfig_of_isConfig {call : Call δ} (h : call.isConfig) :
    ∃ c, call = .request (.setConfig c) := by
  simp only [isConfig] at h
  split at h
  · exact ⟨_, rfl⟩
  · cases h

namespace Cpu

variable (c : Config → Config) (g : Nat → Nat)

theorem Accepts.relabel {cpu : Cpu δ} {ctx : Context} (h : cpu.Accepts ctx) :
    (cpu.relabel c g).Accepts ctx :=
  ⟨h.mode, h.request, h.service⟩

theorem Faults.relabel {cpu : Cpu δ} {ctx : Context} {e : ContextError} (h : cpu.Faults ctx e) :
    (cpu.relabel c g).Faults ctx e := by
  cases h with
  | mode hmode => exact .mode hmode
  | request hmode hi hle => exact .request hmode hi hle
  | service hmode hrequest hi hle => exact .service hmode hrequest hi hle

theorem apply_takeContext_relabel (ctx : Context) (cpu : Cpu δ) :
    (takeContext ctx).apply (cpu.relabel c g) =
      Prod.map id (relabel c g) ((takeContext ctx).apply cpu) := by
  rcases cpu.accepts_or_faults ctx with haccepts | ⟨e, hfaults⟩
  · rw [apply_takeContext_of_accepts haccepts,
      apply_takeContext_of_accepts (haccepts.relabel c g)]
    rfl
  · rw [apply_takeContext_of_faults hfaults, apply_takeContext_of_faults (hfaults.relabel c g)]
    rfl

theorem apply_takeImage_relabel (bytes : List Byte) (cpu : Cpu δ) :
    (takeImage bytes).apply (cpu.relabel c g) =
      Prod.map id (relabel c g) ((takeImage bytes).apply cpu) := by
  cases hread : Context.ofBytes bytes with
  | error e =>
      rw [apply_takeImage_of_error hread, apply_takeImage_of_error hread]
      rfl
  | ok ctx =>
      rw [apply_takeImage_of_ok hread, apply_takeImage_of_ok hread]
      exact apply_takeContext_relabel c g ctx cpu

variable [Peripheral δ]

theorem setRegister_relabel (reg : RegisterName) (v : Word) (cpu : Cpu δ) :
    (cpu.relabel c g).setRegister reg v = (cpu.setRegister reg v).relabel c g := by
  cases reg <;> rfl

theorem serve_relabel {r : Request δ} (hr : r.Respects c) (cpu : Cpu δ) :
    (cpu.relabel c g).serve r = Prod.map id (relabel c g) (cpu.serve r) := by
  cases r with
  | setRegister reg v => exact congrArg (Prod.mk _) (setRegister_relabel c g reg v cpu)
  | setContext ctx => exact apply_takeContext_relabel c g ctx cpu
  | importImage bytes => exact apply_takeImage_relabel c g bytes cpu
  | setConfig _ =>
      rcases hr with rfl | hr
      · rfl
      · cases hr
  | _ => rfl

end Cpu

namespace Machine

variable [Bus σ] [Peripheral δ] {memory : σ → Word → Byte}

theorem run_literal (h : Bus.Plain memory) (budget : BitVec 32) (m : Machine σ δ) :
    m.literal.run budget = ((m.run budget).1, (m.run budget).2.literal) := by
  simp only [run, runFor_literal h]
  rfl

theorem serve_literal (h : Bus.Plain memory) {call : Call δ} (hc : call.isConfig = false)
    (m : Machine σ δ) : m.literal.serve call = ((m.serve call).1, (m.serve call).2.literal) := by
  cases call with
  | run budget =>
      simp only [serve, run_literal h]
  | request r =>
      have hserve : m.literal.cpu.serve r = _ :=
        Cpu.serve_relabel (fun _ => ⟨false⟩) id (r := r) (.inr hc) m.cpu
      simp only [serve, hserve]
      rfl

/-- The history is the one that the calls other than new configurations have
where every round of a loop is run. -/
theorem history_literal (h : Bus.Plain memory) (calls : List (Call δ)) (m : Machine σ δ) :
    m.history calls = m.literal.history (calls.filter fun call => !call.isConfig) := by
  induction calls generalizing m with
  | nil => rfl
  | cons call calls ih =>
      cases hc : call.isConfig with
      | true =>
          obtain ⟨c, rfl⟩ := Call.eq_setConfig_of_isConfig hc
          rw [List.filter_cons_of_neg (by simp [hc])]
          exact ih (m.withConfig c)
      | false =>
          rw [List.filter_cons_of_pos (by simp [hc])]
          simp only [history, hc, serve_literal h hc, Bool.false_eq_true, if_false]
          rw [ih]
          rfl

/-- The accelerator is invisible. On a plain bus two processors that differ in
their configuration, and whose configurations are set at will between the
calls, have the same history. -/
theorem history_withConfig (h : Bus.Plain memory) (c₁ c₂ : Config) {calls₁ calls₂ : List (Call δ)}
    (hcalls : calls₁.filter (fun call => !call.isConfig) =
      calls₂.filter fun call => !call.isConfig) (m : Machine σ δ) :
    (m.withConfig c₁).history calls₁ = (m.withConfig c₂).history calls₂ := by
  rw [history_literal h calls₁, history_literal h calls₂, hcalls]
  rfl

/-- A jump to itself, which an interrupt ends. -/
theorem history_withConfig_flat :
    let calls : List (Call StateLatch) :=
      [.run 100, .request (.setNmiLine .assert), .run 50]
    let switched := .run 100 :: .request (.setConfig ⟨false⟩) :: calls.tail
    let m : Machine Bus.Flat StateLatch := ⟨{}, Bus.Flat.load 0 [0x18, 0xFE] {}⟩
    Bus.Plain Bus.Flat.peek ∧
    calls.filter (fun call => !call.isConfig) = switched.filter (fun call => !call.isConfig) ∧
    (m.withConfig ⟨true⟩).history switched = (m.withConfig ⟨false⟩).history calls := by
  intro calls switched m
  have hcalls : switched.filter (fun call => !call.isConfig) =
      calls.filter fun call => !call.isConfig := rfl
  exact ⟨Bus.Flat.plain, hcalls.symm,
    history_withConfig Bus.Flat.plain ⟨true⟩ ⟨false⟩ hcalls m⟩

end Machine
end Z80
