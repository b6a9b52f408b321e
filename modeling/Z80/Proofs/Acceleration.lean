import Z80.Proofs.Loops

/-!
The accelerator on a static bus. It looks for a loop in the bytes that plain
reads give; where a loop that they show is one of the stream, the rounds that
it skips are rounds that the processor would run. On a plain bus that is
always so.
-/
namespace Z80

variable {σ δ : Type}

/-- The machine with another configuration. -/
def Machine.withConfig (c : Config) : Machine σ δ → Machine σ δ :=
  Machine.onCpu (Cpu.relabel (fun _ => c) id)

/-- The machine that runs every round of a loop. -/
abbrev Machine.literal : Machine σ δ → Machine σ δ :=
  Machine.withConfig { loopAcceleration := false }

namespace Cpu

theorem calm_of_canAccelerate {cpu : Cpu δ} {remaining : Nat}
    (h : cpu.canAccelerate remaining) (hrunning : cpu.regs.halted = false) (g : Nat → Nat) :
    (cpu.relabel (fun _ => { loopAcceleration := false }) g).Calm := by
  simp only [canAccelerate, Bool.and_eq_true, Bool.not_eq_true'] at h
  exact ⟨rfl, hrunning, h.2⟩

end Cpu

namespace Counter

/-- The cost of the branch back to `addr` that stands behind a test at `pc`,
if there is one. -/
def branch? (memory : Word → Byte) (addr pc : Word) : Option Nat :=
  match (memory (pc + 2)).toNat with
  | 0x20 =>
    if memory (pc + 3) = 0xFB then some ((Instr.jrIf .nz 0).cost + (Instr.jrIf .nz 0).extra)
    else none
  | 0xC2 =>
    if Word.ofBytes (memory (pc + 3 + 1)) (memory (pc + 3)) = addr then
      some (Instr.jpIf .nz 0).cost
    else none
  | _ => none

/-- The cost of the branch that closes a countdown, whose test stands at `pc`,
if the bytes are those of one. -/
def closing? (c : Counter) (memory : Word → Byte) (pc : Word) : Option Nat :=
  if c.isTest (memory pc) (memory (pc + 1)) then branch? memory (pc - 1) pc else none

theorem eq_of_ofInstr? {i : Instr} {c : Counter} (h : ofInstr? i = some c) :
    i = .dec16 c.pair := by
  simp only [ofInstr?] at h
  split at h <;> cases h <;> rfl

end Counter

namespace Exec

variable [Bus σ] [Peripheral δ] {data opcodes operands : σ → Word → Byte}
variable (h : Bus.Static data opcodes operands) {m : Machine σ δ}

omit [Bus σ] [Peripheral δ] in
theorem skip_apply (addr : Word) (remaining round refreshes : Nat) (enable : Bool)
    (m : Machine σ δ) :
    skipIdle.skip addr remaining round refreshes enable m =
      if skippable remaining round = 0 then (0, m)
      else (skippable remaining round * round,
        m.onRegs (Registers.afterIdle addr (refreshes * skippable remaining round) enable)) := by
  simp only [skipIdle.skip, ite_apply, pure_apply, bind_apply]
  rfl

omit [Peripheral δ] in
include h in
theorem skipIdle_static (addr : Word) (cost remaining : Nat) (m : Machine σ δ) :
    skipIdle addr cost remaining m =
      if m.cpu.regs.pc = addr then skipIdle.skip addr remaining cost 1 false m
      else if m.cpu.regs.pc = addr - 1 then
        if data m.bus m.cpu.regs.pc = 0x00 then
          skipIdle.skip addr remaining (Instr.nop.cost + cost) 2 false m
        else if data m.bus m.cpu.regs.pc = 0xFB ∧ m.cpu.regs.iff1 then
          skipIdle.skip addr remaining (Instr.ei.cost + cost) 2 true m
        else (0, m)
      else (0, m) := by
  simp only [skipIdle, regs_bind, ite_apply, read_bind_static h, pure_apply]

/-- Skipped rounds of an idle loop are rounds that the processor runs. -/
theorem reaches_skip {addr dest : Word} {round k : Nat} {enable : Bool} (remaining : Nat)
    (hround : ∀ m' : Machine σ δ, m'.bus = m.bus → m'.cpu.Idle dest →
      m'.cpu.regs.iff1 = m.cpu.regs.iff1 →
        m'.Reaches round (m'.onRegs (Registers.afterIdle addr k enable)))
    (hidle : m.literal.cpu.Idle dest) :
    let s := skipIdle.skip addr remaining round k enable m
    m.literal.Reaches s.1 s.2.literal := by
  intro s
  have hs : s = _ := skip_apply addr remaining round k enable m
  by_cases hzero : skippable remaining round = 0
  · rw [if_pos hzero] at hs
    rw [hs]
    exact .refl _
  · obtain ⟨n, hn⟩ := Nat.exists_eq_succ_of_ne_zero hzero
    rw [if_neg hzero, hn] at hs
    rw [hs]
    exact reaches_idleRounds (m := m.literal) hround hidle n

omit [Bus σ] in
theorem spells_filler {bus : σ} {addr : Word} {enable : Bool}
    (hop : opcodes bus addr = bif enable then 0xFB else 0x00) :
    Spells opcodes operands bus addr (.filler enable) 0 := by
  refine ⟨.fixed (.filler enable), ?_, rfl, rfl⟩
  rw [hop]
  cases enable <;> rfl

/-- The loops that plain reads show around the jumps and counters of the stream
are loops of the stream. -/
structure ShowsLoops (data opcodes operands : σ → Word → Byte) (bus : σ) : Prop where
  /-- A filler before a jump that goes back to it. -/
  filler (addr : Word) (i : Instr) :
    JumpsTo opcodes operands bus addr i (addr - 1) →
      data bus (addr - 1) = 0x00 ∨ data bus (addr - 1) = 0xFB →
        opcodes bus (addr - 1) = data bus (addr - 1)
  /-- The test and the branch behind the `DEC` of a counter. -/
  countdown (c : Counter) (addr : Word) (jump : Nat) :
    Spells opcodes operands bus addr (.dec16 c.pair) 0 →
      c.closing? (data bus) (addr + 1) = some jump →
        CountsDown opcodes operands bus c addr jump

include h in
theorem reaches_skipIdle {addr : Word} {i : Instr} (remaining : Nat)
    (hidle : m.literal.cpu.Idle m.cpu.regs.pc)
    (hj : JumpsTo opcodes operands m.bus addr i m.cpu.regs.pc)
    (hshows : ShowsLoops data opcodes operands m.bus) :
    let s := skipIdle addr i.cost remaining m
    m.literal.Reaches s.1 s.2.literal := by
  intro s
  have hs : s = _ := skipIdle_static h addr i.cost remaining m
  by_cases hself : m.cpu.regs.pc = addr
  · rw [if_pos hself] at hs
    rw [hs]
    rw [hself] at hidle hj
    exact reaches_skip remaining
      (fun m' hbus hidle' _ => reaches_selfJump h hidle' (hbus ▸ hj)) hidle
  by_cases hback : m.cpu.regs.pc = addr - 1
  · rw [if_neg hself, if_pos hback] at hs
    rw [hback] at hidle hj hs
    have hfiller := hshows.filler addr i hj
    have hround (enable : Bool)
        (hop : opcodes m.bus (addr - 1) = bif enable then 0xFB else 0x00)
        (hiff1 : enable → m.cpu.regs.iff1) (m' : Machine σ δ) (hbus : m'.bus = m.bus)
        (hidle' : m'.cpu.Idle (addr - 1)) (hkeep : m'.cpu.regs.iff1 = m.cpu.regs.iff1) :
        m'.Reaches ((Instr.filler enable).cost + i.cost)
          (m'.onRegs (Registers.afterIdle addr 2 enable)) := by
      rw [← hbus] at hj hop
      exact reaches_filledJump h hidle' (fun he => hkeep.trans (hiff1 he)) (spells_filler hop) hj
    by_cases hnop : data m.bus (addr - 1) = 0x00
    · rw [if_pos hnop] at hs
      rw [hs]
      have hop := (hfiller (.inl hnop)).trans hnop
      exact reaches_skip remaining (hround false hop (absurd · Bool.false_ne_true)) hidle
    by_cases hei : data m.bus (addr - 1) = 0xFB ∧ m.cpu.regs.iff1
    · rw [if_neg hnop, if_pos hei] at hs
      rw [hs]
      have hop := (hfiller (.inr hei.1)).trans hei.1
      exact reaches_skip remaining (hround true hop fun _ => hei.2) hidle
    · rw [if_neg hnop, if_neg hei] at hs
      rw [hs]
      exact .refl _
  · rw [if_neg hself, if_neg hback] at hs
    rw [hs]
    exact .refl _

omit [Peripheral δ] in
include h in
theorem countdownJump_static (addr pc : Word) (m : Machine σ δ) :
    countdownJump addr pc m = (Counter.branch? (data m.bus) addr pc, m) := by
  simp only [countdownJump, Counter.branch?, read_bind_static h]
  generalize (data m.bus (pc + 2)).toNat = code
  split
  · simp only [read_bind_static h, ite_apply, pure_apply]
    split <;> rfl
  · simp only [bind_apply, read16_static h, ite_apply, pure_apply]
    split <;> rfl
  · simp only [*, pure_apply]

omit [Peripheral δ] in
include h in
theorem skipCountdown_static (c : Counter) (remaining : Nat) (m : Machine σ δ) :
    skipCountdown c remaining m =
      let r := m.cpu.regs
      let count := (r.reg16 c.pair).toNat
      if count ≤ 1 ∨ 0xFFFC ≤ r.pc.toNat then (0, m)
      else match c.closing? (data m.bus) r.pc with
        | none => (0, m)
        | some jump =>
          let n := min (skippable remaining (Counter.bodyCost + jump)) count
          if n = 0 then (0, m)
          else (n * (Counter.bodyCost + jump),
            m.onRegs (Registers.afterCountdown c (r.pc - 1) n)) := by
  simp only [skipCountdown, regs_bind, ite_apply, read_bind_static h, pure_apply]
  split
  · rfl
  · cases htest : c.isTest (data m.bus m.cpu.regs.pc) (data m.bus (m.cpu.regs.pc + 1)) with
    | false =>
        simp only [Counter.closing?, htest, Bool.false_eq_true, if_false, Bool.not_false, if_true]
    | true =>
        simp only [Bool.not_true, Bool.false_eq_true, if_false, bind_apply,
          countdownJump_static h, Counter.closing?, htest, if_true]
        cases Counter.branch? (data m.bus) (m.cpu.regs.pc - 1) m.cpu.regs.pc with
        | none => rfl
        | some jump =>
            simp only [ite_apply, pure_apply, bind_apply]
            split <;> rfl

include h in
theorem reaches_skipCountdown {c : Counter} (remaining : Nat) (hcalm : m.literal.cpu.Calm)
    (hsettled : m.literal.cpu.Settled)
    (hstream : ∀ jump, c.closing? (data m.bus) m.cpu.regs.pc = some jump →
      CountsDown opcodes operands m.bus c (m.cpu.regs.pc - 1) jump) :
    let s := skipCountdown c remaining m
    m.literal.Reaches s.1 s.2.literal := by
  intro s
  have hs : s = _ := skipCountdown_static h c remaining m
  by_cases hout : (m.cpu.regs.reg16 c.pair).toNat ≤ 1 ∨ 0xFFFC ≤ m.cpu.regs.pc.toNat
  · simp only [if_pos hout] at hs
    rw [hs]
    exact .refl _
  simp only [if_neg hout] at hs
  cases hclosing : c.closing? (data m.bus) m.cpu.regs.pc with
  | none =>
      simp only [hclosing] at hs
      rw [hs]
      exact .refl _
  | some jump =>
      simp only [hclosing] at hs
      by_cases hzero : min (skippable remaining (Counter.bodyCost + jump))
          (m.cpu.regs.reg16 c.pair).toNat = 0
      · rw [if_pos hzero] at hs
        rw [hs]
        exact .refl _
      · obtain ⟨n, hn⟩ := Nat.exists_eq_succ_of_ne_zero hzero
        rw [if_neg hzero, hn] at hs
        rw [hs]
        have hle : n + 1 ≤ (m.cpu.regs.reg16 c.pair).toNat := by
          rw [← Nat.succ_eq_add_one, ← hn]
          exact Nat.min_le_right _ _
        exact reaches_countdownRounds (m := m.literal) h hcalm hsettled
          (BitVec.sub_add_cancel _ _).symm hle (hstream jump hclosing)

omit [Bus σ] [Peripheral δ] in
theorem countsDown_of_closing {memory : σ → Word → Byte} {bus : σ} {c : Counter} {pc : Word}
    {jump : Nat} (hdec : Spells memory memory bus (pc - 1) (.dec16 c.pair) 0)
    (hclosing : c.closing? (memory bus) pc = some jump) :
    CountsDown memory memory bus c (pc - 1) jump := by
  have hfirst : pc - 1 + 1 = pc := BitVec.sub_add_cancel pc 1
  have hsecond : pc - 1 + 2 = pc + 1 := by bv_omega
  have hthird : pc - 1 + 3 = pc + 2 := by bv_omega
  -- What was compared byte by byte is now decoded, the branch by its code.
  simp only [Counter.closing?, Option.ite_none_right_eq_some] at hclosing
  obtain ⟨htest, hbranch⟩ := hclosing
  obtain ⟨x, y, hhalves, hload, hor⟩ := Counter.decode_of_isTest htest
  refine ⟨hdec, ⟨x, y, hhalves, ?_, ?_⟩, ?_⟩
  · exact ⟨_, hfirst ▸ hload, rfl, rfl⟩
  · exact ⟨_, hsecond ▸ hor, rfl, rfl⟩
  · rw [hthird]
    have hfourth : pc + 2 + 1 = pc + 3 := BitVec.add_assoc pc 2 1
    simp only [Counter.branch?] at hbranch
    split at hbranch
    · rename_i hcode
      have hop : memory bus (pc + 2) = 0x20 := BitVec.eq_of_toNat_eq hcode
      simp only [Option.ite_none_right_eq_some, Option.some.injEq] at hbranch
      refine .inl ⟨⟨.byte (.jrIf .nz), hop ▸ rfl, rfl, ?_⟩, hbranch.2.symm⟩
      rw [hfourth, hbranch.1]
      rfl
    · rename_i hcode
      have hop : memory bus (pc + 2) = 0xC2 := BitVec.eq_of_toNat_eq hcode
      simp only [Option.ite_none_right_eq_some, Option.some.injEq] at hbranch
      refine .inr ⟨⟨.word (.jpIf .nz), hop ▸ rfl, rfl, ?_⟩, hbranch.2.symm⟩
      rw [hfourth, ← hbranch.1]
      rfl
    · cases hbranch

omit [Bus σ] [Peripheral δ] in
/-- On a plain bus the bytes that the accelerator looks at are the stream. -/
theorem showsLoops_plain (memory : σ → Word → Byte) (bus : σ) :
    ShowsLoops memory memory memory bus where
  filler _ _ _ _ := rfl
  countdown c addr jump hdec hclosing := by
    have haddr : addr + 1 - 1 = addr := BitVec.add_sub_cancel addr 1
    rw [← haddr] at hdec
    have hloop := countsDown_of_closing hdec hclosing
    rwa [haddr] at hloop

include h in
theorem step_closesLoop (m : Machine σ δ) (hc : (step m).1.1.instr.closesLoop) :
    ∃ indexed i n k, ∃ addr : Word, addr = m.cpu.regs.pc + (if indexed then 1 else 0) ∧
      Spells opcodes operands m.bus addr i n ∧ (step m).1.1 = ⟨indexed, i⟩ ∧
      (step m).2 = (execute i (m.onRegs fun r =>
        { Registers.refresh k r.start with pc := addr + 1 + BitVec.ofNat 16 n })).2.onCpu
          (Cpu.retire i) := by
  obtain ⟨indexed, i, n, k, addr, haddr, hi, hfetch⟩ :=
    fetch_closesLoop h (m.onRegs Registers.start) hc
  refine ⟨indexed, i, n, k, addr, haddr, hi, ?_, ?_⟩
  · rw [step_apply]
    simp only [hfetch]
  · rw [step_apply]
    simp only [hfetch]
    rfl

include h in
theorem step_jump (m : Machine σ δ) (hj : (step m).1.1.instr.isJump) :
    ∃ indexed i k, ∃ addr dest : Word, addr = m.cpu.regs.pc + (if indexed then 1 else 0) ∧
      JumpsTo opcodes operands m.bus addr i dest ∧ (step m).1.1 = ⟨indexed, i⟩ ∧
      (step m).2 = m.onCpu (Cpu.after i fun r => (Registers.refresh k r.start).jumped dest) := by
  obtain ⟨indexed, i, n, k, addr, haddr, hi, hop, hstep⟩ := step_closesLoop h m
    (by simp [Instr.closesLoop, hj])
  have hjump : i.isJump := by
    rwa [hop] at hj
  refine ⟨indexed, i, k, addr, _, haddr, ⟨hjump, n, hi, rfl⟩, hop, ?_⟩
  have hregs : ((fun r : Registers => r.jumped (i.target r.pc)) ∘ fun r : Registers =>
      { Registers.refresh k r.start with pc := addr + 1 + BitVec.ofNat 16 n }) m.cpu.regs =
      (Registers.refresh k m.cpu.regs.start).jumped
        (i.target (addr + 1 + BitVec.ofNat 16 n)) := by
    simp only [Function.comp_apply, Registers.jumped]
  have hstate := Machine.after_congr
    (k := fun r => (Registers.refresh k r.start).jumped (i.target (addr + 1 + BitVec.ofNat 16 n)))
    hregs i
  rw [hstep, execute_jump hjump, ← hstate]
  simp only [Machine.onRegs_onRegs, Machine.onRegs_retire]

include h in
theorem step_counter {c : Counter} (m : Machine σ δ)
    (hc : Counter.ofInstr? (step m).1.1.instr = some c) : ∃ k, ∃ addr : Word,
      Spells opcodes operands m.bus addr (.dec16 c.pair) 0 ∧
      (step m).2 = m.onCpu (Cpu.after (.dec16 c.pair) fun r =>
        Registers.lowered c { Registers.refresh k r.start with pc := addr + 1 }) := by
  obtain ⟨indexed, i, n, k, addr, haddr, hi, hop, hstep⟩ := step_closesLoop h m
    (by simp [Instr.closesLoop, hc])
  rw [hop] at hc
  obtain rfl := Counter.eq_of_ofInstr? hc
  obtain rfl : n = 0 := hi.length_eq
  refine ⟨k, addr, hi, ?_⟩
  rw [hstep, execute_dec16, BitVec.add_zero]
  simp only [Machine.onRegs_onRegs, Machine.onRegs_retire]
  rfl

omit [Bus σ] [Peripheral δ] in
theorem settled_literal {n : Machine σ δ} {i : Instr} {g : Registers → Registers}
    (hi : i.isSilent) (hn : n = m.onCpu (Cpu.after i g)) : n.literal.cpu.Settled := by
  have hsettled := Cpu.settled_after hi g m.cpu
  rw [hn]
  exact ⟨hsettled.eiDelay, hsettled.afterLdAIR, hsettled.q⟩

include h in
theorem reaches_afterJump {n : Machine σ δ} {addr dest : Word} {i : Instr} {k remaining : Nat}
    (hrunning : m.cpu.regs.halted = false) (hj : JumpsTo opcodes operands m.bus addr i dest)
    (hshows : ShowsLoops data opcodes operands m.bus)
    (hn : n = m.onCpu (Cpu.after i fun r => (Registers.refresh k r.start).jumped dest))
    (hcan : n.cpu.canAccelerate remaining) :
    let s := skipIdle addr i.cost remaining n
    n.literal.Reaches s.1 s.2.literal := by
  have hregs : n.cpu.regs = (Registers.refresh k m.cpu.regs.start).jumped dest := by
    rw [hn, Machine.after_regs]
  have hbus : n.bus = m.bus := by
    rw [hn, Machine.onCpu_bus]
  have hpc : n.cpu.regs.pc = dest := by
    rw [hregs, Registers.jumped]
  have hhalted : n.cpu.regs.halted = false := by
    rw [hregs, ← hrunning]
    simp only [Registers.jumped, Registers.refresh, Registers.start]
  have hidle : n.literal.cpu.Idle n.cpu.regs.pc := {
    calm := Cpu.calm_of_canAccelerate hcan hhalted id
    settled := settled_literal (Instr.isSilent_of_isJump hj.1) hn
    pc_eq := rfl
    wz_eq := by
      change n.cpu.regs.wz = n.cpu.regs.pc
      rw [hregs, Registers.jumped] }
  rw [← hbus] at hshows
  rw [← hpc, ← hbus] at hj
  exact reaches_skipIdle h remaining hidle hj hshows

include h in
theorem reaches_afterCounter {n : Machine σ δ} {addr : Word} {c : Counter} {k remaining : Nat}
    (hrunning : m.cpu.regs.halted = false)
    (hdec : Spells opcodes operands m.bus addr (.dec16 c.pair) 0)
    (hshows : ShowsLoops data opcodes operands m.bus)
    (hn : n = m.onCpu (Cpu.after (.dec16 c.pair) fun r =>
      Registers.lowered c { Registers.refresh k r.start with pc := addr + 1 }))
    (hcan : n.cpu.canAccelerate remaining) :
    let s := skipCountdown c remaining n
    n.literal.Reaches s.1 s.2.literal := by
  have hregs : n.cpu.regs =
      Registers.lowered c { Registers.refresh k m.cpu.regs.start with pc := addr + 1 } := by
    rw [hn, Machine.after_regs]
  have hbus : n.bus = m.bus := by
    rw [hn, Machine.onCpu_bus]
  have hpc : n.cpu.regs.pc = addr + 1 := by
    rw [hregs, Registers.lowered_pc]
  have hhalted : n.cpu.regs.halted = false := by
    rw [hregs, Registers.lowered_halted, ← hrunning]
    simp only [Registers.refresh, Registers.start]
  refine reaches_skipCountdown h remaining (Cpu.calm_of_canAccelerate hcan hhalted id)
    (settled_literal rfl hn) fun jump hclosing => ?_
  rw [hpc, hbus] at hclosing
  rw [hpc, hbus, BitVec.add_sub_cancel]
  exact hshows.countdown c addr jump hdec hclosing

include h in
/-- Where the bus shows its loops, every round that is skipped is one that the
processor runs. -/
theorem reaches_accelerate (hshows : ShowsLoops data opcodes operands m.bus) (remaining : Nat)
    (hrunning : m.cpu.regs.halted = false) :
    let r := step m
    let s := accelerate r.1.1 remaining r.2
    r.2.literal.Reaches s.1 s.2.literal := by
  intro r s
  have hs : s = _ := accelerate_apply r.1.1 remaining r.2
  by_cases hcan : r.2.cpu.canAccelerate remaining
  · rw [if_pos hcan] at hs
    by_cases hj : r.1.1.instr.isJump
    · rw [if_pos hj] at hs
      obtain ⟨indexed, i, k, addr, dest, haddr, hjumps, hop, hstep⟩ := step_jump h m hj
      have hprepc : r.2.cpu.regs.prepc = m.cpu.regs.pc := by
        rw [hstep, Machine.after_regs]
        simp only [Registers.jumped, Registers.refresh, Registers.start]
      rw [hprepc, hop, ← haddr] at hs
      rw [hs]
      exact reaches_afterJump h hrunning hjumps hshows hstep hcan
    · rw [if_neg hj] at hs
      cases hcounter : Counter.ofInstr? r.1.1.instr with
      | none =>
          simp only [hcounter] at hs
          rw [hs]
          exact .refl _
      | some c =>
          simp only [hcounter] at hs
          obtain ⟨k, addr, hdec, hstep⟩ := step_counter h m hcounter
          rw [hs]
          exact reaches_afterCounter h hrunning hdec hshows hstep hcan
  · rw [if_neg hcan] at hs
    rw [hs]
    exact .refl _

end Exec

namespace Machine

variable [Bus σ] [Peripheral δ]

/-- The bus at the beginning of every round of a run. -/
def buses (remaining : Nat) (m : Machine σ δ) : List σ :=
  if h : 0 < remaining then
    have := Exec.four_le_advance h m
    let r := Exec.advance remaining m
    m.bus :: buses (remaining - r.1) (r.2.elapse r.1)
  else
    []
termination_by remaining
decreasing_by omega

theorem buses_of_pos {remaining : Nat} (h : 0 < remaining) (m : Machine σ δ) :
    m.buses remaining =
      let r := Exec.advance remaining m
      m.bus :: (r.2.elapse r.1).buses (remaining - r.1) := by
  rw [buses]
  simp only [h, ↓reduceDIte]

variable {data opcodes operands : σ → Word → Byte} (h : Bus.Static data opcodes operands)

include h in
theorem stepAndSkip_literal {m : Machine σ δ} {remaining : Nat}
    (hshows : Exec.ShowsLoops data opcodes operands m.bus)
    (hrunning : m.cpu.regs.halted = false) {l r : Nat × Machine σ δ}
    (hl : l = Exec.stepAndSkip remaining m.literal) (hr : r = Exec.stepAndSkip remaining m)
    (ih : (r.2.elapse r.1).literal.runFor (remaining - r.1) =
      ((r.2.elapse r.1).runFor (remaining - r.1)).literal) :
    (l.2.elapse l.1).runFor (remaining - l.1) =
      ((r.2.elapse r.1).runFor (remaining - r.1)).literal := by
  obtain ⟨cost, n, s, hcost, hn, hs⟩ : ∃ cost n s, cost = (Exec.step m).1.2 ∧
      n = (Exec.step m).2 ∧ s = Exec.accelerate (Exec.step m).1.1 (remaining - cost) n :=
    ⟨_, _, _, rfl, rfl, rfl⟩
  have hfits : s.1 ≤ remaining - cost := by
    have := Exec.atMost_accelerate (Exec.step m).1.1 (remaining - cost) n
    rw [← hs] at this
    omega
  have hreach : n.literal.Reaches s.1 s.2.literal := by
    rw [hs, hn]
    exact Exec.reaches_accelerate h hshows (remaining - cost) hrunning
  have hskipped : r = (cost + s.1, s.2) := by
    rw [hr, Exec.stepAndSkip_apply, hs, hn, hcost]
  have hstep : l = (cost, n.literal) := by
    have hcommutes : Exec.step m.literal = ((Exec.step m).1, (Exec.step m).2.literal) :=
      Exec.Commutes.step _ _ m
    simp only [hl, Exec.stepAndSkip_apply, hcommutes, ← hcost, ← hn]
    rw [Exec.accelerate_literal _ _ rfl]
    rfl
  rw [hskipped] at ih ⊢
  rw [hstep]
  calc (n.literal.elapse cost).runFor (remaining - cost)
      = (n.literal.runFor (remaining - cost)).elapse cost := runFor_elapse ..
    _ = ((s.2.literal.elapse s.1).runFor (remaining - cost - s.1)).elapse cost := by
        rw [hreach _ hfits]
    _ = ((s.2.elapse (cost + s.1)).literal).runFor (remaining - (cost + s.1)) := by
        rw [← runFor_elapse, elapse_elapse, Nat.add_comm s.1, Nat.sub_sub]
        rfl
    _ = ((s.2.elapse (cost + s.1)).runFor (remaining - (cost + s.1))).literal := ih

include h in
/-- Running every round of a loop leads to the same as skipping them, as long as
the bus shows its loops. -/
theorem runFor_literal_of_shows (remaining : Nat) (m : Machine σ δ)
    (hshows : ∀ bus ∈ m.buses remaining, Exec.ShowsLoops data opcodes operands bus) :
    m.literal.runFor remaining = (m.runFor remaining).literal := by
  induction remaining, m using runFor_induction with
  | done m => simp only [runFor_zero]
  | round remaining m hpos ih =>
      -- Interrupts and halts are the same rounds on both sides. After an
      -- instruction one side is ahead by the rounds that it has skipped.
      have hrest {l r : Nat × Machine σ δ} (hl : l = (r.1, r.2.literal))
          (ih : (r.2.elapse r.1).literal.runFor (remaining - r.1) =
            ((r.2.elapse r.1).runFor (remaining - r.1)).literal) :
          (l.2.elapse l.1).runFor (remaining - l.1) =
            ((r.2.elapse r.1).runFor (remaining - r.1)).literal := by
        rw [hl]
        exact ih
      rw [buses_of_pos hpos] at hshows
      have ih := ih fun bus hbus => hshows bus (List.mem_cons_of_mem _ hbus)
      have hshown := hshows m.bus List.mem_cons_self
      rw [runFor_of_pos hpos, runFor_of_pos hpos]
      cases hboundary : m.cpu.boundary with
      | nmi =>
          rw [Exec.advance_nmi remaining hboundary] at ih ⊢
          rw [Exec.advance_nmi (m := m.literal) remaining hboundary]
          exact hrest (Exec.Commutes.takeNmi _ _ m) ih
      | irq =>
          rw [Exec.advance_irq remaining hboundary] at ih ⊢
          rw [Exec.advance_irq (m := m.literal) remaining hboundary]
          exact hrest (Exec.Commutes.takeIrq _ _ m) ih
      | free =>
          cases hhalted : m.cpu.regs.halted with
          | true =>
              rw [Exec.advance_halted remaining hboundary hhalted] at ih ⊢
              rw [Exec.advance_halted (m := m.literal) remaining hboundary hhalted]
              have hburn := Exec.Commutes.burnHalt (fun _ => ⟨false⟩) id remaining
                (m.onCpu Cpu.passDelay)
              exact hrest hburn ih
          | false =>
              rw [Exec.advance_running remaining hboundary hhalted] at ih ⊢
              rw [Exec.advance_running (m := m.literal) remaining hboundary hhalted]
              exact stepAndSkip_literal (m := m.onCpu Cpu.passDelay) h hshown hhalted rfl rfl ih

theorem runFor_literal {memory : σ → Word → Byte} (h : Bus.Plain memory) (remaining : Nat)
    (m : Machine σ δ) : m.literal.runFor remaining = (m.runFor remaining).literal :=
  runFor_literal_of_shows h remaining m fun bus _ => Exec.showsLoops_plain memory bus

end Machine
end Z80
