import Mathlib.Algebra.Group.Int.Defs
import Z80.Proofs.Accounting
import Z80.Proofs.Rounds
import Z80.Proofs.Traces

/-!
The numbers that a run computes with. What is left of the budget, the rounds of
a loop that are skipped with their costs and refreshes, the units of a halt and
the addresses that the accelerator looks at all stay in the range of the
machine words that hold them, for every state and every budget of 32 bits.
-/
namespace Z80

open Bus (Logged)

variable {σ δ : Type}

/-- The loops of which rounds are skipped. -/
inductive Loop
  /-- A jump to itself. -/
  | self (jump : Instr)
  /-- A jump back to the filler before it. -/
  | filled (enable : Bool) (jump : Instr)
  /-- A countdown with the cost of the branch that closes it. -/
  | countdown (c : Counter) (branch : Nat)

namespace Loop

/-- The T-states of a round. -/
def cost : Loop → Nat
  | self jump => jump.cost
  | filled enable jump => (Instr.filler enable).cost + jump.cost
  | countdown _ branch => Counter.bodyCost + branch

/-- The refreshes of a round. -/
def refreshes : Loop → Nat
  | self _ => 1
  | filled _ _ => 2
  | countdown _ _ => 4

/-- The registers after `n` more rounds of the loop that stands at `addr`. -/
def after (addr : Word) (n : Nat) (r : Registers) : Loop → Registers
  | self jump => r.afterIdle addr ((self jump).refreshes * n) false
  | filled enable jump => r.afterIdle addr ((filled enable jump).refreshes * n) enable
  | countdown c _ => r.afterCountdown c addr n

/-- The rounds that are skipped with some T-states to go. The last value of a
countdown is not passed. -/
def rounds (remaining : Nat) (r : Registers) (loop : Loop) : Nat :=
  match loop with
  | countdown c _ => min (skippable remaining loop.cost) (r.reg16 c.pair).toNat
  | _ => skippable remaining loop.cost

/-- An instruction that has left these registers may belong to the loop. -/
def Admits (i : Instr) (r : Registers) : Loop → Prop
  | self jump => i = jump ∧ i.isJump
  | filled enable jump => i = jump ∧ i.isJump ∧ (enable → r.iff1)
  | countdown c branch => Counter.ofInstr? i = some c ∧ (branch = 12 ∨ branch = 10) ∧
      1 < (r.reg16 c.pair).toNat ∧ r.pc.toNat < 0xFFFC

end Loop

namespace Exec

/-- What skipping comes to: nothing, or whole rounds of a loop. -/
def Skips (i : Instr) (remaining : Nat) (cpu : Cpu δ) (result : Nat × Machine σ δ) : Prop :=
  result.1 = 0 ∧ result.2.cpu = cpu ∨
    ∃ loop : Loop, ∃ addr : Word, loop.Admits i cpu.regs ∧ 0 < loop.rounds remaining cpu.regs ∧
      result.1 = loop.rounds remaining cpu.regs * loop.cost ∧
      result.2.cpu = cpu.modifyRegs fun r => loop.after addr (loop.rounds remaining cpu.regs) r

/-- The action, begun with the processor on any bus, skips rounds of a loop or
does nothing. -/
def Skipping (i : Instr) (remaining : Nat) (cpu : Cpu δ) (act : Exec σ δ Nat) : Prop :=
  ∀ bus, Skips i remaining cpu (act ⟨cpu, bus⟩)

section

variable {i : Instr} {remaining : Nat} {cpu : Cpu δ}

theorem Skipping.nothing : Skipping i remaining cpu (pure 0 : Exec σ δ Nat) :=
  fun _ => .inl ⟨rfl, rfl⟩

theorem Skipping.regs {g : Registers → Exec σ δ Nat} (h : Skipping i remaining cpu (g cpu.regs)) :
    Skipping i remaining cpu (regs >>= g) :=
  h

theorem Skipping.ite {p : Prop} [Decidable p] {x y : Exec σ δ Nat}
    (hx : p → Skipping i remaining cpu x) (hy : ¬p → Skipping i remaining cpu y) :
    Skipping i remaining cpu (if p then x else y) := by
  split
  · exact hx ‹_›
  · exact hy ‹_›

theorem skipping_skip {addr : Word} {enable : Bool} (loop : Loop)
    (hadmits : loop.Admits i cpu.regs)
    (hrounds : loop.rounds remaining cpu.regs = skippable remaining loop.cost)
    (hafter : ∀ n r, loop.after addr n r = r.afterIdle addr (loop.refreshes * n) enable) :
    Skipping i remaining cpu
      (skipIdle.skip addr remaining loop.cost loop.refreshes enable : Exec σ δ Nat) := by
  intro bus
  rw [skip_apply, ← hrounds]
  split
  · exact .inl ⟨rfl, rfl⟩
  · rename_i hzero
    refine .inr ⟨loop, addr, hadmits, Nat.pos_of_ne_zero hzero, rfl, ?_⟩
    simp only [hafter]
    rfl

variable [Bus σ]

theorem Skipping.read {a : Word} {g : Byte → Exec σ δ Nat}
    (h : ∀ v, Skipping i remaining cpu (g v)) : Skipping i remaining cpu (read a >>= g) :=
  fun _ => h _ _

theorem skipping_skipIdle (hjump : i.isJump) (addr : Word) :
    Skipping i remaining cpu (skipIdle addr i.cost remaining : Exec σ δ Nat) := by
  have hfilled (enable : Bool) (hiff1 : enable → cpu.regs.iff1) : Skipping i remaining cpu
      (skipIdle.skip addr remaining (Loop.filled enable i).cost 2 enable : Exec σ δ Nat) :=
    skipping_skip (.filled enable i) ⟨rfl, hjump, hiff1⟩ rfl fun _ _ => rfl
  refine .regs <| .ite (fun _ => ?_) fun _ =>
    .ite (fun _ => .read fun filler => ?_) fun _ => .nothing
  · exact skipping_skip (.self i) ⟨rfl, hjump⟩ rfl fun _ _ => rfl
  · exact .ite (fun _ => hfilled false nofun) fun _ =>
      .ite (fun hei => hfilled true fun _ => hei.2) fun _ => .nothing

/-- Looking for the branch of a countdown leaves the processor alone. -/
theorem countdownJump_finds (addr pc : Word) (cpu : Cpu δ) (bus : σ) :
    ∃ found bus', countdownJump addr pc ⟨cpu, bus⟩ = (found, ⟨cpu, bus'⟩) ∧
      ∀ branch ∈ found, branch = 12 ∨ branch = 10 := by
  simp only [countdownJump, bind_apply]
  generalize (Exec.read (pc + 2) (Machine.mk cpu bus)).1.toNat = code
  split
  · simp only [bind_apply, ite_apply]
    split
    · exact ⟨_, _, rfl, fun _ h => .inl (Option.mem_some.mp h).symm⟩
    · exact ⟨_, _, rfl, by simp⟩
  · simp only [bind_apply, ite_apply]
    split
    · exact ⟨_, _, rfl, fun _ h => .inr (Option.mem_some.mp h).symm⟩
    · exact ⟨_, _, rfl, by simp⟩
  · exact ⟨_, _, rfl, by simp⟩

theorem Skipping.branch {addr pc : Word} {g : Option Nat → Exec σ δ Nat}
    (hnone : Skipping i remaining cpu (g none))
    (hsome : ∀ branch, branch = 12 ∨ branch = 10 → Skipping i remaining cpu (g (some branch))) :
    Skipping i remaining cpu (countdownJump addr pc >>= g) := by
  intro bus
  obtain ⟨found, bus', hfinds, hbranch⟩ := countdownJump_finds addr pc cpu bus
  rw [bind_apply, hfinds]
  cases found with
  | none => exact hnone bus'
  | some branch => exact hsome branch (hbranch branch rfl) bus'

theorem skipping_skipCountdown {c : Counter} (hcounter : Counter.ofInstr? i = some c) :
    Skipping i remaining cpu (skipCountdown c remaining : Exec σ δ Nat) := by
  refine .regs <| .ite (fun _ => .nothing) fun hguard => .read fun _ => .read fun _ =>
    .ite (fun _ => .nothing) fun _ => .branch .nothing fun branch hbranch =>
      .ite (fun _ => .nothing) fun hzero _ => ?_
  refine .inr ⟨.countdown c branch, cpu.regs.pc - 1, ?_, Nat.pos_of_ne_zero hzero, rfl, rfl⟩
  -- The guard keeps the count from running out and the body away from the end of the memory.
  exact ⟨hcounter, hbranch, by omega, by omega⟩

end

/-- The accelerator does nothing but skip rounds of a loop. -/
theorem skips_accelerate [Bus σ] (op : Operation) (remaining : Nat) (m : Machine σ δ) :
    Skips op.instr remaining m.cpu (accelerate op remaining m) := by
  rw [accelerate_apply]
  split
  · split
    · rename_i hjump
      exact skipping_skipIdle hjump _ m.bus
    · cases hcounter : Counter.ofInstr? op.instr with
      | some c => exact skipping_skipCountdown hcounter m.bus
      | none => exact .inl ⟨rfl, rfl⟩
  · exact .inl ⟨rfl, rfl⟩

/-! The bytes that a countdown is recognised by. -/

/-- The access reads one of the five bytes from an address on, and none of them
lies beyond the end of the memory. -/
def readsAhead (pc : Word) (e : Bus.Event) : Prop :=
  ∃ (i : Nat) (v : Byte), i ≤ 4 ∧ pc.toNat + 4 < 2 ^ 16 ∧ e = .read (pc + BitVec.ofNat 16 i) v

section

variable [Bus σ] {P : Bus.Event → Prop} {m : Machine σ δ}

omit [Bus σ] in
theorem Notes.ite {α : Type} {p : Prop} [Decidable p] {x x' : Exec (Logged σ) δ α}
    {y y' : Exec σ δ α} (h : p → Notes P x y m) (h' : ¬p → Notes P x' y' m) :
    Notes P (if p then x else x') (if p then y else y') m := by
  split
  · exact h ‹_›
  · exact h' ‹_›

theorem Notes.countdownJump (addr : Word) {pc : Word}
    (h : ∀ i ≤ 4, ∀ v, P (.read (pc + BitVec.ofNat 16 i) v)) :
    Notes P (countdownJump addr pc : Exec (Logged σ) δ (Option Nat)) (countdownJump addr pc) m := by
  have hlast : pc + 3 + 1 = pc + BitVec.ofNat 16 4 := BitVec.add_assoc pc 3 1
  refine .bind (.read (h 2 (by decide))) ?_
  generalize (Exec.read (pc + 2) m).1.toNat = code
  split
  · exact .bind (.read (h 3 (by decide))) (.ite (fun _ => .pure _) fun _ => .pure _)
  · refine .bind (.bind (.read (h 3 (by decide))) (.bind (.read ?_) (.pure _))) ?_
    · rw [hlast]
      exact h 4 (by decide)
    · exact .ite (fun _ => .pure _) fun _ => .pure _
  · exact .pure _

theorem Notes.skipCountdown (c : Counter) (remaining : Nat) :
    Notes (readsAhead m.cpu.regs.pc) (skipCountdown c remaining : Exec (Logged σ) δ Nat)
      (skipCountdown c remaining) m := by
  refine .regs (.ite (fun _ => .pure _) fun hguard => ?_)
  have hahead (i : Nat) (hi : i ≤ 4) (v : Byte) :
      readsAhead m.cpu.regs.pc (.read (m.cpu.regs.pc + BitVec.ofNat 16 i) v) :=
    ⟨i, v, hi, by omega, rfl⟩
  have hfirst (v : Byte) : readsAhead m.cpu.regs.pc (.read m.cpu.regs.pc v) := by
    have h := hahead 0 (by decide) v
    rwa [BitVec.add_zero] at h
  refine .bind (.read hfirst) (.bind (.read (hahead 1 (by decide))) ?_)
  refine .ite (fun _ => .pure _) fun _ => .bind (.countdownJump _ hahead) ?_
  split
  · exact .pure _
  · exact .ite (fun _ => .pure _) fun _ => .bind (.modifyCpu _) (.pure _)

end

end Exec

theorem Instr.cost_of_isJump {i : Instr} (h : i.isJump) : i.cost = 10 ∨ i.cost = 12 := by
  cases i with
  | jp _ => exact .inl rfl
  | jr _ => exact .inr rfl
  | _ => cases h

namespace Loop

/-- The numbers of `n` rounds that are skipped with `left` T-states to go. -/
structure InRange (loop : Loop) (left : Int) (r : Registers) (n : Nat) : Prop where
  pos : 0 < n
  fits : n * loop.cost ≤ left - 1
  cost_le : loop.cost ≤ 255
  refreshes_lt : r.r.toNat + loop.refreshes * n < 2 ^ 64
  countdown (c : Counter) (branch : Nat) : loop = .countdown c branch →
    r.pc.toNat + 3 < 2 ^ 16 ∧ n ≤ (r.reg16 c.pair).toNat ∧ (BitVec.ofNat 16 n).toNat = n ∧
      ∀ addr, ((loop.after addr n r).reg16 c.pair).toNat = (r.reg16 c.pair).toNat - n

variable {i : Instr} {r : Registers} {loop : Loop}

theorem Admits.cost (h : loop.Admits i r) : 4 ≤ loop.cost ∧ loop.cost ≤ 255 := by
  cases loop with
  | self jump =>
      obtain ⟨rfl, hjump⟩ := h
      have := Instr.cost_of_isJump hjump
      simp only [Loop.cost]
      omega
  | filled enable jump =>
      obtain ⟨rfl, hjump, -⟩ := h
      have := Instr.cost_of_isJump hjump
      have hfiller : (Instr.filler enable).cost = 4 := by
        cases enable <;> rfl
      simp only [Loop.cost, hfiller]
      omega
  | countdown c branch =>
      obtain ⟨-, hbranch, -⟩ := h
      have hbody : Counter.bodyCost = 14 := rfl
      simp only [Loop.cost, hbody]
      omega

theorem rounds_le_skippable (remaining : Nat) :
    loop.rounds remaining r ≤ skippable remaining loop.cost := by
  cases loop with
  | countdown c branch => exact Nat.min_le_left _ _
  | _ => exact Nat.le_refl _

theorem refreshes_le : loop.refreshes ≤ 4 := by
  cases loop <;> exact Nat.le_of_ble_eq_true rfl

/-- Whatever is skipped fits. -/
theorem Admits.inRange (h : loop.Admits i r) {left : Int} (hleft : left < 2 ^ 32)
    (hpos : 0 < loop.rounds left.toNat r) : loop.InRange left r (loop.rounds left.toNat r) := by
  obtain ⟨hcost, hcost'⟩ := h.cost
  have hrounds : loop.rounds left.toNat r * loop.cost ≤ left.toNat - 1 :=
    Nat.le_trans (Nat.mul_le_mul_right _ (rounds_le_skippable _)) (Exec.skippable_mul_le _ _)
  -- No round has more refreshes than T-states, so what bounds the T-states bounds both.
  have hfour : loop.rounds left.toNat r * 4 ≤ loop.rounds left.toNat r * loop.cost :=
    Nat.mul_le_mul_left _ hcost
  have hrefreshes : loop.refreshes * loop.rounds left.toNat r ≤ 4 * loop.rounds left.toNat r :=
    Nat.mul_le_mul_right _ refreshes_le
  have hr := r.r.isLt
  refine ⟨hpos, ?_, hcost', ?_, ?_⟩
  · omega
  · omega
  · rintro c branch rfl
    obtain ⟨-, -, -, hpc⟩ := h
    have hle : (countdown c branch).rounds left.toNat r ≤ (r.reg16 c.pair).toNat :=
      Nat.min_le_right _ _
    have hcount := (r.reg16 c.pair).isLt
    refine ⟨by omega, hle, ?_, fun addr => ?_⟩
    · rw [BitVec.toNat_ofNat]
      omega
    · simp only [after, Registers.reg16_afterCountdown]
      bv_omega

end Loop

namespace Machine

variable [Bus σ] [Peripheral δ] {m : Machine σ δ}

theorem round_eq_halt_iff :
    m.round = .halt ↔ m.cpu.boundary = .free ∧ m.cpu.regs.halted = true := by
  simp only [round]
  cases m.cpu.boundary <;> cases m.cpu.regs.halted <;> simp

theorem round_eq_instr_iff {op : Operation} :
    m.round = .instr op ↔
      m.cpu.boundary = .free ∧ m.cpu.regs.halted = false ∧ (Exec.step m).1.1 = op := by
  simp only [round]
  cases m.cpu.boundary <;> cases m.cpu.regs.halted <;> simp

end Machine

/-- The numbers of what an instruction skips with `left` T-states to go: none
at all, or those of whole rounds of a loop. -/
def Exec.SkipsInRange (i : Instr) (left : Int) (r : Registers) (left' : Int) (r' : Registers) :
    Prop :=
  left' = left ∧ r' = r ∨
    ∃ loop : Loop, ∃ addr : Word, loop.Admits i r ∧
      loop.InRange left r (loop.rounds left.toNat r) ∧
      left' = left - loop.rounds left.toNat r * loop.cost ∧
      r' = loop.after addr (loop.rounds left.toNat r) r

theorem Exec.Skips.inRange {i : Instr} {left : Int} {cpu : Cpu δ} {result : Nat × Machine σ δ}
    (h : Skips i left.toNat cpu result) (hleft : left < 2 ^ 32) :
    SkipsInRange i left cpu.regs (left - result.1) result.2.cpu.regs := by
  obtain ⟨hnone, hcpu⟩ | ⟨loop, addr, hadmits, hpos, hcost, hcpu⟩ := h
  · exact .inl ⟨by omega, congrArg Cpu.regs hcpu⟩
  · refine .inr ⟨loop, addr, hadmits, hadmits.inRange hleft hpos, ?_, congrArg Cpu.regs hcpu⟩
    rw [hcost, Int.natCast_mul]

/-- The numbers of a halt that burns `left` T-states in whole units. -/
structure Exec.BurnsInRange (units : Nat) (left : Int) (r : Registers) (left' : Int)
    (r' : Registers) : Prop where
  pos : 0 < units
  left_eq : left' = left - 4 * units
  low : -3 ≤ left'
  high : left' ≤ 0
  refreshes_lt : r.r.toNat + units < 2 ^ 64
  regs_eq : r' = Registers.refresh units r

theorem Exec.burnHalt_inRange {left : Int} (h : 0 < left) (hlt : left < 2 ^ 32)
    (m : Machine σ δ) :
    BurnsInRange ((left.toNat + 3) / 4) left m.cpu.regs (left - (burnHalt left.toNat m).1)
      (burnHalt left.toNat m).2.cpu.regs := by
  have hr := m.cpu.regs.r.isLt
  have hspent : (burnHalt left.toNat m).1 = (left.toNat + 3) / 4 * 4 := rfl
  refine ⟨by omega, by omega, by omega, by omega, by omega, rfl⟩

namespace Slice

variable [Bus σ] [Peripheral δ]

/-- The numbers of one round of a run, by the kind of the round. -/
structure InRange (s : Slice σ δ) : Prop where
  left_lt : s.left < 2 ^ 32
  low : -24 ≤ s.next.left
  interrupt : s.machine.round = .nmi ∨ s.machine.round = .irq → s.left - s.next.left ≤ 255
  halt : s.machine.round = .halt → ∃ units : Nat,
    Exec.BurnsInRange units s.left s.machine.cpu.regs s.next.left s.next.machine.cpu.regs
  instr (op : Operation) : s.machine.round = .instr op →
    let stepped := Exec.step s.machine
    stepped.1.2 ≤ 255 ∧
      Exec.SkipsInRange op.instr (s.left - stepped.1.2) stepped.2.cpu.regs s.next.left
        s.next.machine.cpu.regs

variable {s : Slice σ δ}

/-- The cost of an entry is the sum of what its instruction costs and a
latency. -/
theorem sub_next_left_le (h : s.machine.round = .nmi ∨ s.machine.round = .irq) :
    s.left - s.next.left ≤ 255 := by
  simp only [Machine.round] at h
  have hcost : (Exec.advance s.left.toNat s.machine).1 ≤ 19 := by
    cases hboundary : s.machine.cpu.boundary with
    | nmi =>
        rw [Exec.advance_nmi _ hboundary]
        exact Nat.le_of_ble_eq_true rfl
    | irq =>
        rw [Exec.advance_irq _ hboundary]
        exact Exec.atMost_takeIrq s.machine
    | free =>
        rw [hboundary] at h
        cases hhalted : s.machine.cpu.regs.halted <;> simp [hhalted] at h
  simp only [next]
  omega

theorem halt_inRange (h : 0 < s.left) (hlt : s.left < 2 ^ 32) (hround : s.machine.round = .halt) :
    ∃ units : Nat,
      Exec.BurnsInRange units s.left s.machine.cpu.regs s.next.left s.next.machine.cpu.regs := by
  obtain ⟨hboundary, hhalted⟩ := Machine.round_eq_halt_iff.mp hround
  refine ⟨(s.left.toNat + 3) / 4, ?_⟩
  simp only [next, Machine.elapse_regs, Exec.advance_halted _ hboundary hhalted]
  exact Exec.burnHalt_inRange h hlt (s.machine.onCpu Cpu.passDelay)

theorem instr_inRange (h : 0 < s.left) (hlt : s.left < 2 ^ 32) {op : Operation}
    (hround : s.machine.round = .instr op) :
    (Exec.step s.machine).1.2 ≤ 255 ∧
      Exec.SkipsInRange op.instr (s.left - (Exec.step s.machine).1.2)
        (Exec.step s.machine).2.cpu.regs s.next.left s.next.machine.cpu.regs := by
  obtain ⟨hboundary, hrunning, rfl⟩ := Machine.round_eq_instr_iff.mp hround
  have hcost := Exec.step_cost_le s.machine
  have hskips := Exec.skips_accelerate (Exec.step s.machine).1.1
    (s.left.toNat - (Exec.step s.machine).1.2) (Exec.step s.machine).2
  have hleft : s.left.toNat - (Exec.step s.machine).1.2 =
      (s.left - (Exec.step s.machine).1.2).toNat := by
    omega
  rw [hleft] at hskips
  have hinRange := hskips.inRange (by omega)
  refine ⟨by omega, ?_⟩
  simp only [next, Machine.elapse_regs, Exec.advance_running _ hboundary hrunning,
    Exec.stepAndSkip_apply, Exec.step_passDelay, hleft, Int.natCast_add]
  rwa [← Int.sub_sub]

/-- A round that begins with something left computes in range. -/
theorem inRange (h : 0 < s.left) (hlt : s.left < 2 ^ 32) : s.InRange where
  left_lt := hlt
  low := neg_le_next_left h
  interrupt := sub_next_left_le
  halt := halt_inRange h hlt
  instr _ := instr_inRange h hlt

/-- What is left only falls. -/
theorem Lasts.left_le {k : Nat} (h : Lasts k s) : (next^[k] s).left ≤ s.left := by
  induction k generalizing s with
  | zero => exact Int.le_refl _
  | succ k ih =>
      have hs : 0 < s.left := h 0 (Nat.succ_pos k)
      have hfalls := next_left_le hs
      have hrest := ih h.tail
      rw [Function.iterate_succ_apply]
      omega

end Slice

namespace Machine

variable [Bus σ] [Peripheral δ]

/-- A run with a budget of 32 bits counts in range. Each of its rounds does, by
its kind; what is left of the budget never falls below -24, so that what has
been spent is a number of 64 bits; and what recognises a countdown looks at no
address beyond the end of the memory. -/
theorem run_in_range (budget : BitVec 32) (m : Machine σ δ) :
    (∃ rounds : Nat,
      let slice (i : Nat) := Slice.next^[i] ⟨budget.toNat, m⟩
      (∀ i < rounds, 0 < (slice i).left ∧ (slice i).InRange) ∧
      (∀ i ≤ rounds, -24 ≤ (slice i).left ∧ 0 ≤ budget.toNat - (slice i).left ∧
        budget.toNat - (slice i).left < 2 ^ 64) ∧
      (slice rounds).left ≤ 0 ∧ (slice rounds).machine = (m.run budget).2) ∧
    ∀ (c : Counter) (remaining : Nat) (n : Machine σ δ),
      Exec.Notes (Exec.readsAhead n.cpu.regs.pc)
        (Exec.skipCountdown c remaining) (Exec.skipCountdown c remaining) n := by
  obtain ⟨rounds, lasts, ends⟩ := Slice.exists_ends ⟨budget.toNat, m⟩
  have hbudget := budget.isLt
  have hlasts {i : Nat} (hi : i ≤ rounds) : Slice.Lasts i ⟨budget.toNat, m⟩ :=
    fun j hj => lasts j (Nat.lt_of_lt_of_le hj hi)
  have hhigh {i : Nat} (hi : i ≤ rounds) :
      (Slice.next^[i] ⟨budget.toNat, m⟩).left ≤ budget.toNat :=
    (hlasts hi).left_le
  have hlow {i : Nat} (hi : i ≤ rounds) : -24 ≤ (Slice.next^[i] ⟨budget.toNat, m⟩).left := by
    cases i with
    | zero => exact Int.le_trans (by decide) (Int.natCast_nonneg _)
    | succ i =>
        rw [Function.iterate_succ_apply']
        exact Slice.neg_le_next_left (lasts i hi)
  refine ⟨⟨rounds, ?_, ?_, ends, (lasts.runFor ends).symm⟩, ?_⟩
  · intro i hi
    have hle := hhigh (Nat.le_of_lt hi)
    exact ⟨lasts i hi, Slice.inRange (lasts i hi) (Int.lt_of_le_of_lt hle (by omega))⟩
  · intro i hi
    have hle := hhigh hi
    have hge := hlow hi
    refine ⟨hge, Int.sub_nonneg_of_le hle, Int.lt_of_le_of_lt (Int.sub_le_sub_left hge _) ?_⟩
    omega
  · exact fun c remaining n => Exec.Notes.skipCountdown c remaining

end Machine
end Z80
