import Z80.Bus.Flat
import Z80.Daisy.StateLatch
import Z80.Proofs.Acceleration
import Z80.Proofs.Fetches

/-!
Runs in slices. Where one budget ends and the next begins leaves no trace on
a plain bus, as long as the processor is not halted right after an `EI`: that
state alone gives the first round of a slice a meaning of its own.
-/
namespace Z80

variable {σ δ : Type}

/-- The processor is not halted in the shadow of an `EI`. -/
def Cpu.Steady (cpu : Cpu δ) : Prop :=
  ¬(cpu.regs.halted = true ∧ cpu.eiDelay = true)

namespace Registers

theorem halted_blind : Blind halted :=
  fun _ _ _ _ _ => rfl

theorem leaveHalt_halted (r : Registers) : r.leaveHalt.halted = false := by
  simp only [leaveHalt]
  split
  · rfl
  · rename_i h
    exact Bool.not_eq_true _ ▸ h

end Registers

namespace Exec

variable [Bus σ]

theorem takeNmi_running (m : Machine σ δ) : (takeNmi m).2.cpu.regs.halted = false := by
  have henter := Keeps.enter (σ := σ) (δ := δ) Registers.halted_blind.placeless nmiEntry
    (m.onCpu Cpu.acceptNmi)
  exact henter.trans (Registers.leaveHalt_halted m.cpu.regs)

variable [Peripheral δ]

theorem takeIrq_running (m : Machine σ δ) : (takeIrq m).2.cpu.regs.halted = false := by
  obtain ⟨mode, data, n, hcpu, henter⟩ := takeIrq_enters m
  rw [henter, Keeps.enterMode Registers.halted_blind.placeless mode data n, hcpu]
  exact Registers.leaveHalt_halted m.cpu.regs

/-- An `EI` does not halt, and every other instruction ends the shadow. -/
theorem step_steady {m : Machine σ δ} (hrunning : m.cpu.regs.halted = false) :
    (step m).2.cpu.Steady := by
  intro ⟨hhalted, hdelay⟩
  have hfetch := Keeps.fetch Registers.halted_blind (m.onRegs Registers.start)
  have hlatch := congrArg Cpu.eiDelay (step_frame m)
  rw [hdelay] at hlatch
  have hei : (step m).1.1.instr = .ei := (beq_iff_eq.mp hlatch.symm)
  have hexecute : (step m).2.cpu.regs.halted =
      (execute (step m).1.1.instr (fetch (m.onRegs Registers.start)).2).2.cpu.regs.halted := rfl
  rw [hei] at hexecute
  have hsame : (step m).2.cpu.regs.halted = m.cpu.regs.halted := hexecute.trans hfetch
  rw [hhalted, hrunning] at hsame
  cases hsame

theorem advance_steady (remaining : Nat) {m : Machine σ δ}
    (hliteral : m.cpu.config.loopAcceleration = false) :
    (advance remaining m).2.cpu.Steady := by
  cases hboundary : m.cpu.boundary with
  | nmi =>
      rw [advance_nmi remaining hboundary]
      exact fun hboth => absurd hboth.1 (by simp [takeNmi_running])
  | irq =>
      rw [advance_irq remaining hboundary]
      exact fun hboth => absurd hboth.1 (by simp [takeIrq_running])
  | free =>
      cases hhalted : m.cpu.regs.halted with
      | true =>
          rw [advance_halted remaining hboundary hhalted]
          exact fun hboth => absurd hboth.2 Bool.false_ne_true
      | false =>
          rw [advance_step remaining hboundary hhalted hliteral]
          exact step_steady hhalted

end Exec

/-- The processor runs round by round, each of which is the same in any slice. -/
structure Cpu.Regular (cpu : Cpu δ) : Prop where
  literal : cpu.config.loopAcceleration = false
  steady : cpu.Steady

namespace Machine

variable [Bus σ] [Peripheral δ]

theorem regular_advance (remaining : Nat) {m : Machine σ δ} (h : m.cpu.Regular) :
    ((Exec.advance remaining m).2.elapse (Exec.advance remaining m).1).cpu.Regular where
  literal := (congrArg _ (Exec.advance_config remaining m)).trans h.literal
  steady := Exec.advance_steady remaining h.literal

theorem regular_runFor (remaining : Nat) {m : Machine σ δ} (h : m.cpu.Regular) :
    (m.runFor remaining).cpu.Regular :=
  runFor_invariant (P := fun m => m.cpu.Regular) (fun remaining _ => regular_advance remaining)
    remaining h

theorem le_runFor_total (remaining : Nat) (m : Machine σ δ) :
    m.cpu.total + remaining ≤ (m.runFor remaining).cpu.total := by
  induction remaining, m using runFor_induction with
  | done m =>
      rw [runFor_zero]
      exact Nat.le_refl _
  | round remaining m hpos ih =>
      have hround := Exec.four_le_advance hpos m
      have hcount := Exec.advance_total remaining m
      rw [elapse_total, hcount] at ih
      rw [runFor_of_pos hpos]
      exact Nat.le_trans (by omega) ih

omit [Bus σ] [Peripheral δ] in
theorem onRegs_refresh_zero (m : Machine σ δ) : m.onRegs (Registers.refresh 0) = m := by
  simp only [onRegs, onCpu, Cpu.modifyRegs, Registers.refresh_zero]

/-- A halted processor that no interrupt wakes refreshes to the end of the run. -/
theorem runFor_halted {m : Machine σ δ} (hboundary : m.cpu.boundary = .free)
    (hhalted : m.cpu.regs.halted = true) (hdelay : m.cpu.eiDelay = false) (n : Nat) :
    m.runFor n = (m.onRegs (Registers.refresh ((n + 3) / 4))).elapse (4 * ((n + 3) / 4)) := by
  rcases Nat.eq_zero_or_pos n with rfl | hpos
  · rw [runFor_zero, onRegs_refresh_zero]
    rfl
  · have hpass : m.onCpu Cpu.passDelay = m := by
      simp only [onCpu, Cpu.passDelay, ← hdelay]
    have hburn : Exec.burnHalt n m =
        (4 * ((n + 3) / 4), m.onRegs (Registers.refresh ((n + 3) / 4))) := by
      rw [Nat.mul_comm]
      rfl
    have hover : n - 4 * ((n + 3) / 4) = 0 := by omega
    rw [runFor_of_pos hpos, Exec.advance_halted n hboundary hhalted, hpass, hburn]
    simp only [hover, runFor_zero]

/-- A halt that is cut in two refreshes as often as in one piece. -/
theorem runFor_halted_split {m : Machine σ δ} (hboundary : m.cpu.boundary = .free)
    (hhalted : m.cpu.regs.halted = true) (hdelay : m.cpu.eiDelay = false) {a b : Nat}
    (hab : a ≤ b) : (m.runFor a).runFor (b - 4 * ((a + 3) / 4)) = m.runFor b := by
  obtain ⟨u, hu⟩ : ∃ u, u = (a + 3) / 4 := ⟨_, rfl⟩
  have hunits : u + (b - 4 * u + 3) / 4 = (b + 3) / 4 := by omega
  have hfirst : m.runFor a = (m.onRegs (Registers.refresh u)).elapse (4 * u) := by
    rw [runFor_halted hboundary hhalted hdelay, hu]
  have hrest : (m.onRegs (Registers.refresh u)).runFor (b - 4 * u) =
      ((m.onRegs (Registers.refresh u)).onRegs
        (Registers.refresh ((b - 4 * u + 3) / 4))).elapse (4 * ((b - 4 * u + 3) / 4)) :=
    runFor_halted (m := m.onRegs (Registers.refresh u)) hboundary hhalted hdelay _
  have hrefresh : Registers.refresh ((b - 4 * u + 3) / 4) ∘ Registers.refresh u =
      Registers.refresh ((b + 3) / 4) := by
    funext r
    rw [← hunits]
    exact Registers.refresh_refresh u _ r
  rw [← hu, hfirst, runFor_elapse, hrest, elapse_elapse, onRegs_onRegs, hrefresh, Nat.add_comm,
    ← Nat.mul_add, hunits, runFor_halted hboundary hhalted hdelay]

theorem advance_eq {m : Machine σ δ} (h : m.cpu.Regular)
    (hawake : m.cpu.boundary = .free → m.cpu.regs.halted = false) (a b : Nat) :
    Exec.advance a m = Exec.advance b m := by
  cases hboundary : m.cpu.boundary with
  | nmi => rw [Exec.advance_nmi a hboundary, Exec.advance_nmi b hboundary]
  | irq => rw [Exec.advance_irq a hboundary, Exec.advance_irq b hboundary]
  | free =>
      have hrunning := hawake hboundary
      rw [Exec.advance_step a hboundary hrunning h.literal,
        Exec.advance_step b hboundary hrunning h.literal]

/-- The machine after a budget goes on as it would have with a larger one. -/
theorem runFor_split {m : Machine σ δ} (h : m.cpu.Regular) {a b : Nat} (hab : a ≤ b) :
    (m.runFor a).runFor (b - ((m.runFor a).cpu.total - m.cpu.total)) = m.runFor b := by
  induction a, m using runFor_induction generalizing b with
  | done m => rw [runFor_zero, Nat.sub_self, Nat.sub_zero]
  | round a m hpos ih =>
      -- A halt lasts to the end of the slice, so its round is another one in
      -- each of the two runs. Every other round is the same in both.
      by_cases hhalt : m.cpu.boundary = .free ∧ m.cpu.regs.halted = true
      · obtain ⟨hboundary, hhalted⟩ := hhalt
        have hdelay : m.cpu.eiDelay = false :=
          Bool.eq_false_iff.mpr fun hdelay => h.steady ⟨hhalted, hdelay⟩
        have hspent : (m.runFor a).cpu.total - m.cpu.total = 4 * ((a + 3) / 4) := by
          rw [runFor_halted hboundary hhalted hdelay, elapse_total]
          exact Nat.add_sub_cancel_left ..
        rw [hspent, runFor_halted_split hboundary hhalted hdelay hab]
      · have hawake (hboundary : m.cpu.boundary = .free) : m.cpu.regs.halted = false :=
          Bool.eq_false_iff.mpr fun hhalted => hhalt ⟨hboundary, hhalted⟩
        have hregular := regular_advance a h
        have hround := Exec.four_le_advance hpos m
        have hcount := Exec.advance_total a m
        obtain ⟨r, hr⟩ : ∃ r, r = Exec.advance a m := ⟨_, rfl⟩
        have hfirst : m.runFor a = (r.2.elapse r.1).runFor (a - r.1) := by
          rw [runFor_of_pos hpos, hr]
        have hwhole : m.runFor b = (r.2.elapse r.1).runFor (b - r.1) := by
          rw [runFor_of_pos (by omega), advance_eq h hawake b a, hr]
        rw [← hr] at ih hregular hround hcount
        have hgrows := le_runFor_total (a - r.1) (r.2.elapse r.1)
        rw [hfirst, hwhole, ← ih hregular (show a - r.1 ≤ b - r.1 by omega)]
        rw [elapse_total, hcount] at hgrows ⊢
        congr 1
        omega

theorem runFor_config (remaining : Nat) (m : Machine σ δ) :
    (m.runFor remaining).cpu.config = m.cpu.config :=
  runFor_invariant (P := fun n => n.cpu.config = m.cpu.config)
    (fun remaining n hn => (Exec.advance_config remaining n).trans hn) remaining rfl

omit [Bus σ] [Peripheral δ] in
theorem eq_of_literal {m n : Machine σ δ} (h : m.literal = n.literal)
    (hconfig : m.cpu.config = n.cpu.config) : m = n := by
  have hback (m : Machine σ δ) : m.literal.withConfig m.cpu.config = m := rfl
  rw [← hback m, ← hback n, h, hconfig]

omit [Bus σ] [Peripheral δ] in
theorem regular_literal {m : Machine σ δ} (h : m.cpu.Steady) : m.literal.cpu.Regular :=
  ⟨rfl, h⟩

variable {memory : σ → Word → Byte} (h : Bus.Plain memory)
include h

theorem steady_runFor (n : Nat) {m : Machine σ δ} (hm : m.cpu.Steady) :
    (m.runFor n).cpu.Steady := by
  have hregular := regular_runFor n (regular_literal hm)
  rw [runFor_literal h] at hregular
  exact hregular.steady

theorem runFor_split_plain {m : Machine σ δ} (hm : m.cpu.Steady) {a b : Nat} (hab : a ≤ b) :
    (m.runFor a).runFor (b - ((m.runFor a).cpu.total - m.cpu.total)) = m.runFor b := by
  -- Skipping depends on the slice, so the runs are compared without it.
  refine eq_of_literal ?_ ?_
  · have hliteral := runFor_split (regular_literal hm) hab
    rw [runFor_literal h a, runFor_literal h b, runFor_literal h] at hliteral
    exact hliteral
  · rw [runFor_config, runFor_config, runFor_config]

/-- A run is as many of the shortest runs as its budget needs. -/
theorem runFor_repeat {m : Machine σ δ} (hm : m.cpu.Steady) (n : Nat) : ∃ k,
    (∀ j < k, ((runFor 1)^[j] m).cpu.total < m.cpu.total + n) ∧
    m.cpu.total + n ≤ ((runFor 1)^[k] m).cpu.total ∧ (runFor 1)^[k] m = m.runFor n := by
  induction n using Nat.strongRecOn generalizing m with
  | ind n ih =>
      rcases Nat.eq_zero_or_pos n with rfl | hpos
      · exact ⟨0, fun j hj => absurd hj (Nat.not_lt_zero j), Nat.le_refl _, (runFor_zero m).symm⟩
      obtain ⟨one, hone⟩ : ∃ one, one = m.runFor 1 := ⟨_, rfl⟩
      have hgrows : m.cpu.total + 1 ≤ one.cpu.total := hone ▸ le_runFor_total 1 m
      have hsplit : one.runFor (n - (one.cpu.total - m.cpu.total)) = m.runFor n := by
        rw [hone]
        exact runFor_split_plain h hm hpos
      have hsteady : one.cpu.Steady := hone ▸ steady_runFor h 1 hm
      by_cases hover : m.cpu.total + n ≤ one.cpu.total
      · refine ⟨1, ?_, ?_, ?_⟩
        · intro j hj
          obtain rfl : j = 0 := by omega
          exact Nat.lt_add_of_pos_right hpos
        · rw [Function.iterate_one, ← hone]
          exact hover
        · rw [← hsplit, show n - (one.cpu.total - m.cpu.total) = 0 by omega, runFor_zero]
          exact hone.symm
      · obtain ⟨k, hbefore, hafter, hend⟩ := ih (n - (one.cpu.total - m.cpu.total)) (by omega) hsteady
        refine ⟨k + 1, ?_, ?_, ?_⟩
        · intro j hj
          cases j with
          | zero => exact Nat.lt_add_of_pos_right hpos
          | succ j =>
              have hlt := hbefore j (by omega)
              rw [Function.iterate_succ_apply, ← hone]
              omega
        · rw [Function.iterate_succ_apply, ← hone]
          omega
        · rw [Function.iterate_succ_apply, ← hone, hend, hsplit]

/-- Slicing a run leaves no trace on a plain bus. Whatever a first budget has
spent, the rest of a larger one leads to where the larger one leads at once;
and a run is the shortest run over and over until its budget is spent. -/
theorem run_slices {m : Machine σ δ}
    (hm : ¬(m.cpu.regs.halted = true ∧ m.cpu.eiDelay = true)) :
    (∀ a b : BitVec 32, a ≤ b →
      let first := (m.run a).2
      let spent := first.cpu.total - m.cpu.total
      (if spent < b.toNat then (first.run (BitVec.ofNat 32 (b.toNat - spent))).2 else first) =
        (m.run b).2) ∧
    ∀ n : BitVec 32, ∃ k,
      let after (j : Nat) := (fun m : Machine σ δ => (m.run 1).2)^[j] m
      (∀ j < k, (after j).cpu.total < m.cpu.total + n.toNat) ∧
        m.cpu.total + n.toNat ≤ (after k).cpu.total ∧ after k = (m.run n).2 := by
  constructor
  · intro a b hab first spent
    have hsplit : first.runFor (b.toNat - spent) = m.runFor b.toNat :=
      runFor_split_plain h hm hab
    split
    · have hbudget : (BitVec.ofNat 32 (b.toNat - spent)).toNat = b.toNat - spent := by
        rw [BitVec.toNat_ofNat]
        omega
      change first.runFor (BitVec.ofNat 32 (b.toNat - spent)).toNat = m.runFor b.toNat
      rw [hbudget, hsplit]
    · rw [Nat.sub_eq_zero_of_le (by omega), runFor_zero] at hsplit
      exact hsplit
  · intro n
    exact runFor_repeat h hm n.toNat

omit h in
/-- An `EI` and a `HALT`, cut between the two. -/
theorem run_slices_flat :
    let m : Machine Bus.Flat StateLatch := ⟨{}, Bus.Flat.load 0 [0xFB, 0x76] {}⟩
    let first := (m.run 4).2
    let spent := first.cpu.total - m.cpu.total
    Bus.Plain Bus.Flat.peek ∧ ¬(m.cpu.regs.halted = true ∧ m.cpu.eiDelay = true) ∧
    (if spent < 100 then (first.run (BitVec.ofNat 32 (100 - spent))).2 else first) =
      (m.run 100).2 ∧
    ∃ k, (fun m : Machine Bus.Flat StateLatch => (m.run 1).2)^[k] m = (m.run 100).2 := by
  intro m first spent
  have hm : ¬(m.cpu.regs.halted = true ∧ m.cpu.eiDelay = true) :=
    fun hboth => Bool.false_ne_true hboth.1
  obtain ⟨hslices, hrepeat⟩ := run_slices Bus.Flat.plain hm
  obtain ⟨k, -, -, hk⟩ := hrepeat 100
  exact ⟨Bus.Flat.plain, hm, hslices 4 100 (by decide), k, hk⟩

end Machine
end Z80
