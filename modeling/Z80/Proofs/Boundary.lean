import Z80.Proofs.Relabel

/-!
What happens at a boundary and what it leaves alone. A round of a run is an
interrupt, what is left of a halt, or an instruction with the rounds of a
loop that it skips; outside the registers each of them changes little.
-/
namespace Z80

variable {σ δ : Type}

/-- One boundary goes by after an `EI`. -/
def Cpu.passDelay (cpu : Cpu δ) : Cpu δ :=
  { cpu with eiDelay := false }

/-- The processor after its chain has answered an acknowledge. -/
def Cpu.acknowledged [Peripheral δ] (cpu : Cpu δ) : Cpu δ :=
  { cpu with
    chain := cpu.chain.map fun chain => if chain.isEmpty then chain else chain.acknowledge.2 }

/-! What holds of the attached chain, if there is one, and is kept when the
chain changes. -/

theorem Cpu.forall_chain_map {P : DaisyChain δ → Prop} {cpu next : Cpu δ}
    {g : DaisyChain δ → DaisyChain δ} (h : ∀ chain ∈ cpu.chain, P chain)
    (hg : ∀ c, P c → P (g c)) (hnext : next.chain = cpu.chain.map g) :
    ∀ chain ∈ next.chain, P chain := by
  intro chain hchain
  rw [hnext] at hchain
  obtain ⟨c, hc, rfl⟩ := Option.map_eq_some_iff.mp hchain
  exact hg c (h c hc)

theorem Cpu.forall_chain_congr {P : DaisyChain δ → Prop} {cpu next : Cpu δ}
    (h : ∀ chain ∈ cpu.chain, P chain) (hnext : next.chain = cpu.chain) :
    ∀ chain ∈ next.chain, P chain := by
  rwa [hnext]

namespace Exec

variable [Bus σ] [Peripheral δ]

omit [Peripheral δ] in
theorem accelerate_apply (op : Operation) (remaining : Nat) (m : Machine σ δ) :
    accelerate op remaining m =
      if m.cpu.canAccelerate remaining then
        if op.instr.isJump then
          skipIdle (m.cpu.regs.prepc + (if op.indexed then 1 else 0)) op.instr.cost remaining m
        else
          match Counter.ofInstr? op.instr with
          | some c => skipCountdown c remaining m
          | none => (0, m)
      else (0, m) := by
  simp only [accelerate, cpu_bind, ite_apply, pure_apply]
  cases Counter.ofInstr? op.instr <;> rfl

section

variable (remaining : Nat) {m : Machine σ δ}

theorem advance_nmi (h : m.cpu.boundary = .nmi) : advance remaining m = takeNmi m := by
  simp only [advance, cpu_bind, h]

theorem advance_irq (h : m.cpu.boundary = .irq) : advance remaining m = takeIrq m := by
  simp only [advance, cpu_bind, h]

theorem advance_free (h : m.cpu.boundary = .free) :
    advance remaining m =
      if m.cpu.regs.halted then burnHalt remaining (m.onCpu Cpu.passDelay)
      else stepAndSkip remaining (m.onCpu Cpu.passDelay) := by
  simp only [advance, cpu_bind, h]
  change (if m.cpu.regs.halted then burnHalt remaining else stepAndSkip remaining :
    Exec σ δ Nat) (m.onCpu Cpu.passDelay) = _
  rw [ite_apply]

theorem advance_halted (h : m.cpu.boundary = .free) (hhalted : m.cpu.regs.halted = true) :
    advance remaining m = burnHalt remaining (m.onCpu Cpu.passDelay) := by
  rw [advance_free remaining h, if_pos hhalted]

theorem advance_running (h : m.cpu.boundary = .free) (hrunning : m.cpu.regs.halted = false) :
    advance remaining m = stepAndSkip remaining (m.onCpu Cpu.passDelay) := by
  rw [advance_free remaining h, hrunning, if_neg Bool.false_ne_true]

end

section

variable (m : Machine σ δ)

theorem step_frame :
    (step m).2.cpu =
      Cpu.retire (step m).1.1.instr
        ((if (step m).1.1.instr = .reti then m.cpu.retiChain else m.cpu).around
          (step m).2.cpu) := by
  obtain ⟨i, f, hi, hf⟩ : ∃ i f, i = (step m).1.1.instr ∧
      f = (fetch (m.onRegs Registers.start)).2 := ⟨_, _, rfl, rfl⟩
  have hfetch : f.cpu = m.cpu.around f.cpu := by
    rw [hf]
    exact fetch_frame (m.onRegs Registers.start)
  have hchain (inner : Cpu δ) : (if i = .reti then f.cpu.retiChain else f.cpu).around inner =
      (if i = .reti then m.cpu.retiChain else m.cpu).around inner := by
    rw [hfetch]
    split <;> rfl
  have hexecute := execute_frame i f
  rw [hchain] at hexecute
  have hstep : (step m).2.cpu = Cpu.retire i (execute i f).2.cpu := by
    rw [hi, hf]
    rfl
  rw [← hi, hstep]
  exact congrArg (Cpu.retire i) hexecute

theorem step_config : (step m).2.cpu.config = m.cpu.config :=
  congrArg (fun r => r.2.cpu.config) (Commutes.step (fun _ => m.cpu.config) id m)

omit [Peripheral δ] in
theorem accelerate_frame (op : Operation) (remaining : Nat) :
    (accelerate op remaining m).2.cpu = m.cpu.around (accelerate op remaining m).2.cpu := by
  have h := m.cpu.around_outer
  rw [accelerate_apply]
  split
  · split
    · exact (Commutes.skipIdle h _ _ _).frame
    · cases Counter.ofInstr? op.instr with
      | some c => exact (Commutes.skipCountdown h c remaining).frame
      | none => rfl
  · rfl

omit [Peripheral δ] in
theorem takeNmi_frame : (takeNmi m).2.cpu = m.cpu.acceptNmi.around (takeNmi m).2.cpu := by
  have henter : Commutes m.cpu.acceptNmi.around (enter nmiEntry : Exec σ δ Unit) :=
    .enter (Cpu.around_outer _) nmiEntry
  exact henter.frame (m := m.onCpu Cpu.acceptNmi)

theorem acknowledge_cpu : (acknowledge m).2.cpu = m.cpu.acknowledged := by
  have hkeep {chain : Option (DaisyChain δ)} (h : m.cpu.chain = chain) :
      m.cpu = { m.cpu with chain } := by
    rw [← h]
  simp only [acknowledge, Cpu.acknowledged]
  rw [cpu_bind]
  cases hchain : m.cpu.chain with
  | none => exact hkeep hchain
  | some chain =>
      cases hempty : chain.isEmpty with
      | true =>
          simp only [hempty, if_true, Option.map_some]
          exact hkeep hchain
      | false =>
          simp only [hempty, Bool.false_eq_true, if_false, Option.map_some]
          rfl

theorem takeIrq_enters : ∃ mode data, ∃ n : Machine σ δ,
    n.cpu = m.cpu.acceptIrq.acknowledged ∧ (takeIrq m).2 = (enterMode mode data n).2 :=
  ⟨_, _, _, acknowledge_cpu (m.onCpu Cpu.acceptIrq), rfl⟩

theorem takeIrq_frame :
    (takeIrq m).2.cpu = m.cpu.acceptIrq.acknowledged.around (takeIrq m).2.cpu := by
  obtain ⟨mode, data, n, hcpu, henter⟩ := takeIrq_enters m
  rw [henter, ← hcpu]
  exact (Commutes.enterMode n.cpu.around_outer mode data).frame

end

section

variable (remaining : Nat) (m : Machine σ δ)

theorem stepAndSkip_frame :
    (stepAndSkip remaining m).2.cpu =
      (step m).2.cpu.around (stepAndSkip remaining m).2.cpu :=
  accelerate_frame (step m).2 (step m).1.1 (remaining - (step m).1.2)

theorem advance_config : (advance remaining m).2.cpu.config = m.cpu.config := by
  cases hboundary : m.cpu.boundary with
  | nmi =>
      rw [advance_nmi remaining hboundary, takeNmi_frame]
      rfl
  | irq =>
      rw [advance_irq remaining hboundary, takeIrq_frame]
      rfl
  | free =>
      rw [advance_free remaining hboundary]
      split
      · rfl
      · rw [stepAndSkip_frame]
        exact step_config (m.onCpu Cpu.passDelay)

/-- A round changes the chain by a return from interrupt or an acknowledge. -/
theorem advance_chain :
    (advance remaining m).2.cpu.chain = m.cpu.chain ∨
      (advance remaining m).2.cpu.chain = m.cpu.retiChain.chain ∨
        (advance remaining m).2.cpu.chain = m.cpu.acknowledged.chain := by
  cases hboundary : m.cpu.boundary with
  | nmi =>
      rw [advance_nmi remaining hboundary, takeNmi_frame]
      exact .inl rfl
  | irq =>
      rw [advance_irq remaining hboundary, takeIrq_frame]
      exact .inr (.inr rfl)
  | free =>
      rw [advance_free remaining hboundary]
      split
      · exact .inl rfl
      · have hstep := congrArg Cpu.chain (step_frame (m.onCpu Cpu.passDelay))
        rw [stepAndSkip_frame]
        by_cases hreti : (step (m.onCpu Cpu.passDelay)).1.1.instr = .reti
        · rw [if_pos hreti] at hstep
          exact .inr (.inl hstep)
        · rw [if_neg hreti] at hstep
          exact .inl hstep

end

end Exec

/-- Not read off the program counter, the stack pointer or the latch. -/
def Registers.Placeless {β : Type} (f : Registers → β) : Prop :=
  ∀ (r : Registers) (pc sp wz : Word), f { r with pc, sp, wz } = f r

/-- Not read off the counters of the instruction stream, the stack pointer or
the latch. -/
def Registers.Blind {β : Type} (f : Registers → β) : Prop :=
  ∀ (r : Registers) (pc sp wz : Word) (k : Byte), f { r with pc, sp, wz, r := k } = f r

theorem Registers.Blind.placeless {β : Type} {f : Registers → β} (hf : Blind f) : Placeless f :=
  fun r pc sp wz => hf r pc sp wz r.r

namespace Exec

/-- The action leaves what is read off the registers. -/
def Keeps {α β : Type} (f : Registers → β) (act : Exec σ δ α) : Prop :=
  ∀ m : Machine σ δ, f (act m).2.cpu.regs = f m.cpu.regs

section

variable {α β γ : Type} {f : Registers → γ}

theorem Keeps.pure (v : α) : Keeps f (pure v : Exec σ δ α) :=
  fun _ => rfl

theorem Keeps.bind {x : Exec σ δ α} {g : α → Exec σ δ β} (hx : Keeps f x)
    (hg : ∀ v, Keeps f (g v)) : Keeps f (x >>= g) := by
  intro m
  rw [bind_apply, hg, hx]

theorem Keeps.regs : Keeps f (regs : Exec σ δ Registers) :=
  fun _ => rfl

theorem Keeps.onBus (act : StateM σ α) : Keeps f (onBus act : Exec σ δ α) :=
  fun _ => rfl

theorem Keeps.modifyRegs {g : Registers → Registers} (hg : ∀ r, f (g r) = f r) :
    Keeps f (modifyRegs g : Exec σ δ Unit) :=
  fun m => hg m.cpu.regs

variable [Bus σ]

theorem Keeps.read16 (a : Word) : Keeps f (read16 a : Exec σ δ Word) :=
  .bind (.onBus _) fun _ => .bind (.onBus _) fun _ => .pure _

section

variable (hf : Registers.Placeless f)
include hf

omit [Bus σ] in
theorem Keeps.jump (w : Word) : Keeps f (jump w : Exec σ δ Unit) :=
  .modifyRegs fun r => hf r w r.sp w

theorem Keeps.push (w : Word) : Keeps f (push w : Exec σ δ Unit) :=
  .bind .regs fun s => .bind (.onBus _) fun _ => .bind (.onBus _) fun _ =>
    .modifyRegs fun r => hf r r.pc (s.sp - 2) r.wz

theorem Keeps.ret : Keeps f (ret : Exec σ δ Unit) :=
  .bind (.bind .regs fun s => .bind (.read16 _) fun _ =>
    .bind (.modifyRegs fun r => hf r r.pc (s.sp + 2) r.wz) fun _ => .pure _) fun _ => .jump hf _

theorem Keeps.enter (addr : Word) : Keeps f (enter addr : Exec σ δ Unit) :=
  .bind .regs fun _ => .bind (.push hf _) fun _ => .jump hf _

theorem Keeps.enterMode (mode : Mode) (data : BitVec 32) :
    Keeps f (enterMode mode data : Exec σ δ Nat) := by
  cases mode with
  | direct =>
      simp only [Exec.enterMode]
      cases Mode0.ofData data with
      | call addr | restart addr => exact .bind (.enter hf addr) fun _ => .pure _
      | jump addr => exact .bind (.jump hf addr) fun _ => .pure _
  | fixed => exact .bind (.enter hf _) fun _ => .pure _
  | vectored =>
      exact .bind .regs fun _ => .bind (.push hf _) fun _ => .bind .regs fun _ =>
        .bind (.read16 _) fun _ => .bind (.jump hf _) fun _ => .pure _

end

end

end Exec
end Z80
