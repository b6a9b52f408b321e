import Mathlib.Algebra.Group.Nat.Defs
import Mathlib.Logic.Function.Iterate
import Z80.Proofs.Relabel

/-!
The T-states of a run. Every round costs at least four, no instruction costs
more than twenty-five, and skipped rounds of a loop always leave one T-state
of the budget. So a run ends, it spends its whole budget, and it goes beyond
it by twenty-four at the most.
-/
namespace Z80

variable {σ δ α : Type}

theorem Cell.extra_le (displaced : Nat) (m : Cell) : m.extra displaced ≤ displaced := by
  cases m <;> simp [extra]

theorem Instr.cost_add_extra_le (i : Instr) : i.cost + i.extra ≤ 21 := by
  cases i with
  | load _ m | store m _ =>
      have := m.extra_le 8
      simp only [cost, extra]
      omega
  | storeImm m _ =>
      have := m.extra_le 5
      simp only [cost, extra]
      omega
  | alu _ p | inc p | dec p =>
      cases p with
      | reg _ => exact Nat.le_of_ble_eq_true rfl
      | mem m =>
          have := m.extra_le 8
          simp only [cost, extra]
          omega
  | bits op p _ =>
      cases p with
      | reg _ => cases op <;> exact Nat.le_of_ble_eq_true rfl
      | mem m =>
          have := m.extra_le 4
          cases op <;> simp only [cost, extra] <;> omega
  | loadA a | storeA a => cases a <;> exact Nat.le_of_ble_eq_true rfl
  | block _ _ repeats => cases repeats <;> exact Nat.le_of_ble_eq_true rfl
  | _ => exact Nat.le_of_ble_eq_true rfl

theorem Operation.cost_le (op : Operation) (taken : Bool) : op.cost taken ≤ 25 := by
  have := op.instr.cost_add_extra_le
  simp only [Operation.cost, Timing.indexPrefix]
  split <;> split <;> omega

namespace Exec

/-- The action gives no more than a number of T-states. -/
def AtMost (n : Nat) (act : Exec σ δ Nat) : Prop :=
  ∀ m : Machine σ δ, (act m).1 ≤ n

theorem AtMost.pure {n k : Nat} (h : k ≤ n) : AtMost n (pure k : Exec σ δ Nat) :=
  fun _ => h

theorem AtMost.bind {n : Nat} {x : Exec σ δ α} {g : α → Exec σ δ Nat}
    (h : ∀ v, AtMost n (g v)) : AtMost n (x >>= g) :=
  fun _ => h _ _

theorem AtMost.ite {n : Nat} {c : Prop} [Decidable c] {x y : Exec σ δ Nat} (hx : AtMost n x)
    (hy : AtMost n y) : AtMost n (if c then x else y) := by
  split
  · exact hx
  · exact hy

theorem skippable_mul_le (remaining round : Nat) :
    skippable remaining round * round ≤ remaining - 1 :=
  Nat.div_mul_le_self _ _

theorem atMost_skip (addr : Word) (remaining round refreshes : Nat) (enable : Bool) :
    AtMost (remaining - 1)
      (skipIdle.skip addr remaining round refreshes enable : Exec σ δ Nat) :=
  .ite (.pure (Nat.zero_le _)) <| .bind fun _ => .pure (skippable_mul_le remaining round)

variable [Bus σ]

theorem atMost_skipIdle (addr : Word) (cost remaining : Nat) :
    AtMost (remaining - 1) (skipIdle addr cost remaining : Exec σ δ Nat) :=
  .bind fun _ => .ite (atMost_skip _ _ _ _ _) <| .ite
    (.bind fun _ => .ite (atMost_skip _ _ _ _ _) <| .ite (atMost_skip _ _ _ _ _) (.pure (Nat.zero_le _)))
    (.pure (Nat.zero_le _))

theorem atMost_skipCountdown (c : Counter) (remaining : Nat) :
    AtMost (remaining - 1) (skipCountdown c remaining : Exec σ δ Nat) := by
  refine .bind fun r => .ite (.pure (Nat.zero_le _)) <| .bind fun _ => .bind fun _ =>
    .ite (.pure (Nat.zero_le _)) <| .bind fun jump => ?_
  cases jump with
  | none => exact .pure (Nat.zero_le _)
  | some jump =>
      refine .ite (.pure (Nat.zero_le _)) <| .bind fun _ => .pure ?_
      exact Nat.le_trans (Nat.mul_le_mul_right _ (Nat.min_le_left _ _)) (skippable_mul_le _ _)

theorem atMost_accelerate (op : Operation) (remaining : Nat) :
    AtMost (remaining - 1) (accelerate op remaining : Exec σ δ Nat) := by
  refine .bind fun _ => .ite (.ite (atMost_skipIdle _ _ _) ?_) (.pure (Nat.zero_le _))
  cases Counter.ofInstr? op.instr with
  | some c => exact atMost_skipCountdown c remaining
  | none => exact .pure (Nat.zero_le _)

theorem atMost_enterMode (mode : Mode) (data : BitVec 32) :
    AtMost 17 (enterMode mode data : Exec σ δ Nat) := by
  cases mode with
  | direct =>
      simp only [enterMode]
      cases Mode0.ofData data <;> exact .bind fun _ => .pure (by decide)
  | fixed => exact .bind fun _ => .pure (by decide)
  | vectored =>
      exact .bind fun _ => .bind fun _ => .bind fun _ => .bind fun _ => .bind fun _ =>
        .pure (by decide)

variable [Peripheral δ]

theorem atMost_takeIrq : AtMost 19 (takeIrq : Exec σ δ Nat) := by
  intro m
  simp only [takeIrq, bind_apply, pure_apply]
  exact Nat.add_le_add_right (atMost_enterMode _ _ _) 2

theorem step_cost_le (m : Machine σ δ) : (step m).1.2 ≤ 25 :=
  Operation.cost_le ..

theorem stepAndSkip_apply (remaining : Nat) (m : Machine σ δ) :
    stepAndSkip remaining m =
      let r := step m
      let s := accelerate r.1.1 (remaining - r.1.2) r.2
      (r.1.2 + s.1, s.2) := rfl

/-- Skipping stays inside the budget, so only the instruction itself can
overrun it. -/
theorem atMost_stepAndSkip {remaining : Nat} (h : 0 < remaining) :
    AtMost (remaining + 24) (stepAndSkip remaining : Exec σ δ Nat) := by
  intro m
  have hcost := step_cost_le m
  have hskip := atMost_accelerate (step m).1.1 (remaining - (step m).1.2) (step m).2
  simp only [stepAndSkip_apply]
  omega

theorem atMost_advance {remaining : Nat} (h : 0 < remaining) :
    AtMost (remaining + 24) (advance remaining : Exec σ δ Nat) := by
  apply AtMost.bind
  intro cpu
  cases cpu.boundary with
  | nmi => exact .bind fun _ => .bind fun _ => .pure (by simp only [Timing.nmiEntry]; omega)
  | irq => exact fun m => Nat.le_trans (atMost_takeIrq m) (by omega)
  | free =>
      refine .bind fun _ => .bind fun _ => .ite (.bind fun _ => .pure ?_) (atMost_stepAndSkip h)
      simp only [Timing.haltUnit]
      omega

/-- No round touches the count; the run counts its rounds around them. -/
theorem advance_total (remaining : Nat) (m : Machine σ δ) :
    (advance remaining m).2.cpu.total = m.cpu.total :=
  congrArg (fun r => r.2.cpu.total) (Commutes.advance (fun _ => m.cpu.total) remaining m)

end Exec

namespace Machine

@[simp] theorem elapse_total (n : Nat) (m : Machine σ δ) :
    (m.elapse n).cpu.total = m.cpu.total + n := rfl

@[simp] theorem elapse_regs (n : Nat) (m : Machine σ δ) :
    (m.elapse n).cpu.regs = m.cpu.regs := rfl

@[simp] theorem elapse_bus (n : Nat) (m : Machine σ δ) : (m.elapse n).bus = m.bus := rfl

variable [Bus σ] [Peripheral δ]

@[simp] theorem runFor_zero (m : Machine σ δ) : m.runFor 0 = m := by
  rw [runFor]
  rfl

theorem runFor_of_pos {remaining : Nat} (h : 0 < remaining) (m : Machine σ δ) :
    m.runFor remaining =
      let r := Exec.advance remaining m
      (r.2.elapse r.1).runFor (remaining - r.1) := by
  rw [runFor]
  simp only [h, ↓reduceDIte]

/-- Induction on the rounds of a run. -/
@[elab_as_elim]
theorem runFor_induction {motive : Nat → Machine σ δ → Prop} (done : ∀ m, motive 0 m)
    (round : ∀ remaining m, 0 < remaining →
      motive (remaining - (Exec.advance remaining m).1)
        ((Exec.advance remaining m).2.elapse (Exec.advance remaining m).1) →
      motive remaining m)
    (remaining : Nat) (m : Machine σ δ) : motive remaining m := by
  induction remaining using Nat.strongRecOn generalizing m with
  | ind remaining ih =>
      rcases Nat.eq_zero_or_pos remaining with rfl | hpos
      · exact done m
      · have hfour := Exec.four_le_advance hpos m
        apply round remaining m hpos
        exact ih _ (by omega) _

theorem runFor_invariant {P : Machine σ δ → Prop}
    (hround : ∀ remaining m, P m →
      P ((Exec.advance remaining m).2.elapse (Exec.advance remaining m).1))
    (remaining : Nat) {m : Machine σ δ} (h : P m) : P (m.runFor remaining) := by
  induction remaining, m using runFor_induction with
  | done m => rwa [runFor_zero]
  | round remaining m hpos ih =>
      rw [runFor_of_pos hpos]
      exact ih (hround remaining m h)

end Machine

/-- A run in progress: the T-states that are left, which the last round may
bring below zero, and the machine. -/
structure Slice (σ δ : Type) where
  left : Int
  machine : Machine σ δ

namespace Slice

variable [Bus σ] [Peripheral δ]

/-- One round: an interrupt, what is left of a halt, or an instruction with
the rounds of a loop that it skips. -/
def next (s : Slice σ δ) : Slice σ δ :=
  let r := Exec.advance s.left.toNat s.machine
  { left := s.left - r.1, machine := r.2.elapse r.1 }

theorem next_left_le {s : Slice σ δ} (h : 0 < s.left) : s.next.left + 4 ≤ s.left := by
  have := Exec.four_le_advance (show 0 < s.left.toNat by omega) s.machine
  simp only [next]
  omega

theorem neg_le_next_left {s : Slice σ δ} (h : 0 < s.left) : -24 ≤ s.next.left := by
  have := Exec.atMost_advance (show 0 < s.left.toNat by omega) s.machine
  simp only [next]
  omega

theorem next_total (s : Slice σ δ) :
    (s.next.machine.cpu.total : Int) + s.next.left = s.machine.cpu.total + s.left := by
  have := Exec.advance_total s.left.toNat s.machine
  simp only [next, Machine.elapse_total]
  omega

theorem iterate_next_total (k : Nat) (s : Slice σ δ) :
    ((next^[k] s).machine.cpu.total : Int) + (next^[k] s).left =
      s.machine.cpu.total + s.left := by
  induction k generalizing s with
  | zero => rfl
  | succ k ih => rw [Function.iterate_succ_apply, ih, next_total]

/-- The first `k` rounds of a run all begin with something left. -/
def Lasts (k : Nat) (s : Slice σ δ) : Prop :=
  ∀ i < k, 0 < (next^[i] s).left

theorem Lasts.tail {k : Nat} {s : Slice σ δ} (h : Lasts (k + 1) s) : Lasts k s.next := by
  intro i hi
  rw [← Function.iterate_succ_apply]
  exact h (i + 1) (by omega)

theorem Lasts.cons {k : Nat} {s : Slice σ δ} (hs : 0 < s.left) (h : Lasts k s.next) :
    Lasts (k + 1) s := by
  intro i hi
  cases i with
  | zero => exact hs
  | succ i =>
      rw [Function.iterate_succ_apply]
      exact h i (by omega)

/-- The rounds come to an end, because each of them lowers what is left. -/
theorem exists_ends (s : Slice σ δ) : ∃ k, Lasts k s ∧ (next^[k] s).left ≤ 0 := by
  by_cases hs : 0 < s.left
  · have hlt := next_left_le hs
    obtain ⟨k, hk, hend⟩ := exists_ends s.next
    exact ⟨k + 1, hk.cons hs, by rwa [Function.iterate_succ_apply]⟩
  · exact ⟨0, fun _ hi => absurd hi (Nat.not_lt_zero _), by simpa using hs⟩
termination_by s.left.toNat

theorem Lasts.neg_le_left {k : Nat} {s : Slice σ δ} (h : Lasts k s) (hs : 0 < s.left) :
    -24 ≤ (next^[k] s).left := by
  cases k with
  | zero =>
      change -24 ≤ s.left
      omega
  | succ k =>
      rw [Function.iterate_succ_apply']
      exact neg_le_next_left (h k (Nat.lt_succ_self k))

theorem Lasts.runFor {k : Nat} {s : Slice σ δ} (h : Lasts k s) (hend : (next^[k] s).left ≤ 0) :
    s.machine.runFor s.left.toNat = (next^[k] s).machine := by
  induction k generalizing s with
  | zero =>
      have hzero : s.left.toNat = 0 := Int.toNat_of_nonpos hend
      rw [hzero, Machine.runFor_zero]
      rfl
  | succ k ih =>
      have hs : 0 < s.left.toNat := by
        have := h 0 (Nat.succ_pos k)
        simp only [Function.iterate_zero, id] at this
        omega
      rw [Function.iterate_succ_apply] at hend ⊢
      rw [Machine.runFor_of_pos hs, ← ih h.tail hend]
      simp only [next]
      congr 1
      omega

end Slice

namespace Machine

variable [Bus σ] [Peripheral δ]

theorem run_fst_toNat (budget : BitVec 32) (m : Machine σ δ) :
    (m.run budget).1.toNat =
      min ((m.runFor budget.toNat).cpu.total - m.cpu.total) (2 ^ 32 - 1) := by
  simp only [run, BitVec.toNat_ofNat]
  omega

/-- Every run ends. Its rounds each take at least four T-states off the
budget; what they spend is the whole budget and at most 24 T-states more, it
is what the count grows by, and it is what the run gives, cut off at 32 bits. -/
theorem run_accounting (budget : BitVec 32) (m : Machine σ δ) : ∃ rounds spent : Nat,
    let slice (i : Nat) := Slice.next^[i] ⟨budget.toNat, m⟩
    (∀ i < rounds, 0 < (slice i).left ∧ (slice (i + 1)).left + 4 ≤ (slice i).left) ∧
    (slice rounds).left = budget.toNat - spent ∧ (slice rounds).left ≤ 0 ∧
    (slice rounds).machine = (m.run budget).2 ∧
    (0 < budget → budget.toNat ≤ spent ∧ spent ≤ budget.toNat + 24) ∧
    (budget = 0 → rounds = 0 ∧ spent = 0 ∧ (m.run budget).2 = m) ∧
    (m.run budget).2.cpu.total = m.cpu.total + spent ∧
    (m.run budget).1.toNat = min spent (2 ^ 32 - 1) := by
  obtain ⟨rounds, lasts, ends⟩ := Slice.exists_ends ⟨budget.toNat, m⟩
  have machine : m.runFor budget.toNat = _ := lasts.runFor ends
  have count := Slice.iterate_next_total rounds ⟨budget.toNat, m⟩
  have low (h : 0 < budget) := lasts.neg_le_left (Int.natCast_pos.mpr h)
  rw [← machine] at count
  obtain ⟨spent, hspent⟩ : ∃ spent : Nat, (Slice.next^[rounds] ⟨budget.toNat, m⟩).left =
      budget.toNat - spent :=
    ⟨(budget.toNat - (Slice.next^[rounds] ⟨budget.toNat, m⟩).left).toNat, by omega⟩
  have grows : (m.runFor budget.toNat).cpu.total = m.cpu.total + spent := by
    simp only [hspent] at count
    omega
  refine ⟨rounds, spent, ?_, hspent, ends, machine.symm, ?_, ?_, grows, ?_⟩
  · intro i hi
    refine ⟨lasts i hi, ?_⟩
    simp only [Function.iterate_succ_apply']
    exact Slice.next_left_le (lasts i hi)
  · intro h
    have := low h
    omega
  · intro h
    subst h
    have hrounds : rounds = 0 :=
      Nat.eq_zero_of_not_pos fun hpos => absurd (lasts 0 hpos) (by simp)
    subst hrounds
    simp only [Function.iterate_zero, id] at hspent
    exact ⟨rfl, by omega, machine⟩
  · rw [run_fst_toNat, grows, Nat.add_sub_cancel_left]

end Machine
end Z80
