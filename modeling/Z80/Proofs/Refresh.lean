import Z80.Proofs.Accesses
import Z80.Proofs.Chronicle
import Z80.Proofs.Fetches
import Z80.Proofs.Service

/-!
The law of the instruction stream. A step fetches its instruction byte by byte,
and the refresh counter and the program counter grow by what was passed, unless
the instruction itself writes them. Over a run the refresh counter grows by the
sum over the rounds.
-/
namespace Z80

variable {σ δ : Type}

/-- The instruction goes on elsewhere than behind its own bytes when it starts
with some registers. A repeating block instruction does so before another round. -/
def Instr.departs (r : Registers) (again : Bool) : Instr → Bool
  | .jp _ | .jpPointer _ | .jr _ | .call _ | .ret | .retn | .reti | .rst _ | .halt => true
  | .jpIf cc _ | .jrIf cc _ | .callIf cc _ | .retIf cc => cc.holds r.f
  | .djnz _ => r.b != 1
  | .block _ _ repeats => repeats && again
  | _ => false

namespace Exec

theorem branchIf_of_not_holds {cc : Condition} {m : Machine σ δ}
    (h : cc.holds m.cpu.regs.f = false) (act : Exec σ δ Unit) :
    branchIf cc act m = (false, m) := by
  simp only [branchIf, regs_bind, h]
  rfl

variable [Bus σ]

theorem block_of_not_repeats (kind : BlockKind) (dir : Direction) (m : Machine σ δ) :
    (block kind dir false m).1 = false := by
  cases kind <;> rfl

variable [Peripheral δ]

theorem keeps_pc {i : Instr} (h : i.branches = false) :
    Keeps Registers.pc (execute i : Exec σ δ Bool) := by
  cases hsystem : i.isSystem with
  | false => exact (keeps_straight hsystem h).mono Registers.pc_of_rest
  | true =>
      cases i with
      | exAF | exx | di | ei | im _ => exact .bind (.modifyRegs fun _ => rfl) fun _ => .pure _
      | ldSystem dst => cases dst <;> exact .bind (.modifyRegs fun _ => rfl) fun _ => .pure _
      | retn | reti | halt => cases h
      | _ => cases hsystem

theorem keeps_r {i : Instr} (h : i ≠ .ldSystem .r) :
    Keeps Registers.r (execute i : Exec σ δ Bool) := by
  cases hsystem : i.isSystem with
  | false => exact (keeps_ordinary hsystem).mono Registers.r_of_beside
  | true =>
      have hret : Keeps Registers.r (ret : Exec σ δ Unit) := keeps_ret.mono Registers.r_of_beside
      cases i with
      | exAF | exx | di | ei | im _ | halt =>
          exact .bind (.modifyRegs fun _ => rfl) fun _ => .pure _
      | ldSystem dst =>
          cases dst with
          | i => exact .bind (.modifyRegs fun _ => rfl) fun _ => .pure _
          | r => exact absurd rfl h
      | retn => exact .bind (.bind hret fun _ => .modifyRegs fun _ => rfl) fun _ => .pure _
      | reti =>
          exact .bind (.bind hret fun _ => .bind (.modifyRegs fun _ => rfl) fun _ _ => rfl) fun _ =>
            .pure _
      | _ => cases hsystem

theorem execute_r (i : Instr) (m : Machine σ δ) :
    (execute i m).2.cpu.regs.r = if i = .ldSystem .r then m.cpu.regs.a else m.cpu.regs.r := by
  split
  · subst i
    rfl
  · rename_i hload
    exact keeps_r hload m

/-- An instruction that does not depart leaves the program counter alone. -/
theorem execute_pc {i : Instr} {m : Machine σ δ} {again : Bool}
    (hagain : (execute i m).1 → again) (h : i.departs m.cpu.regs again = false) :
    (execute i m).2.cpu.regs.pc = m.cpu.regs.pc := by
  -- The registers tell whether a condition holds, but only its own result tells
  -- whether a block instruction goes back.
  cases i with
  | jp _ | jpPointer _ | jr _ | call _ | ret | retn | reti | rst _ | halt => cases h
  | jpIf cc addr =>
      have hcc : cc.holds m.cpu.regs.f = false := h
      change (if cc.holds m.cpu.regs.f then addr else m.cpu.regs.pc) = _
      rw [hcc]
      rfl
  | jrIf cc d =>
      have hskip := branchIf_of_not_holds h (jumpRelative d)
      exact congrArg (fun r => r.2.cpu.regs.pc) hskip
  | callIf cc addr =>
      have hskip := branchIf_of_not_holds (m := (latch addr m).2) h (callTo addr)
      exact congrArg (fun r => r.2.cpu.regs.pc) hskip
  | retIf cc =>
      have hskip := branchIf_of_not_holds h ret
      exact congrArg (fun r => r.2.cpu.regs.pc) hskip
  | djnz d =>
      have hb : (m.cpu.regs.b != 1) = false := h
      have hdone : (m.cpu.regs.b - 1 != 0) = false := by
        rw [bne_eq_false_iff_eq.mp hb]
        rfl
      change ((if m.cpu.regs.b - 1 != 0 then _ else _ : Exec σ δ Bool) _).2.cpu.regs.pc = _
      rw [hdone]
      rfl
  | block kind dir repeats =>
      have hends := EndsRound.block kind dir repeats m
      have hback : (block kind dir repeats m).1 = false := by
        cases repeats with
        | false => exact block_of_not_repeats kind dir m
        | true =>
            have hdone : again = false := h
            exact Bool.eq_false_iff.mpr fun hon => Bool.false_ne_true (hdone.symm.trans (hagain hon))
      rw [hback] at hends
      exact hends
  | _ => exact keeps_pc rfl m

omit [Bus σ] [Peripheral δ] in
theorem departs_streamed (i : Instr) (again : Bool) (n k : Nat) (r : Registers) :
    i.departs (r.start.streamed n k) again = i.departs r again := by
  cases r
  cases i <;> rfl

/-- An instruction fetches some opcodes and operands, and then it makes its other
accesses. Both counters tell what it has passed. -/
theorem exists_step_reads (m : Machine σ δ) : ∃ n opcodes operands, ∃ data : List Bus.Event,
    Reads n opcodes operands (step m).1.1 ∧ (∀ e ∈ data, e.isFetch = false) ∧
    (∀ events, step (m.traced events) = ((step m).1, (step m).2.traced
      (events ++ (Bus.Event.fetches m.cpu.regs.pc opcodes operands ++ data).toArray))) ∧
    (step m).2.cpu.regs.r = (if (step m).1.1.instr = .ldSystem .r then m.cpu.regs.a
      else (Registers.refresh n m.cpu.regs).r) ∧
    ((step m).1.1.instr.departs m.cpu.regs ((step m).1.2 == (step m).1.1.cost true) = false →
      (step m).2.cpu.regs.pc = m.cpu.regs.pc + BitVec.ofNat 16 (n + operands.length)) := by
  obtain ⟨n, opcodes, operands, hfetch⟩ := exists_streams_fetch (m.onRegs Registers.start)
  obtain ⟨f, hf⟩ : ∃ f, fetch (m.onRegs Registers.start) = f := ⟨_, rfl⟩
  obtain ⟨e, he⟩ : ∃ e, execute f.1.instr f.2 = e := ⟨_, rfl⟩
  obtain ⟨data, hdata, hexecute⟩ := FetchFree.execute f.1.instr f.2
  have hstep : step m = ((f.1, f.1.cost e.1), e.2.onCpu (Cpu.retire f.1.instr)) := by
    rw [step_apply, hf]
    simp only [he]
  have hregs : f.2.cpu.regs = m.cpu.regs.start.streamed n operands.length := by
    rw [← hf, hfetch.cpu]
    rfl
  have hreads : Reads n opcodes operands f.1 := hf ▸ hfetch.value
  rw [hstep]
  refine ⟨n, opcodes, operands, data.toList, hreads, ?_, fun events => ?_, ?_, fun hstays => ?_⟩
  · simpa only [Array.mem_toList_iff] using hdata
  · have htrace : fetch ((m.traced events).onRegs Registers.start) = (f.1, f.2.traced
        (events ++ (Bus.Event.fetches m.cpu.regs.pc opcodes operands).toArray)) := by
      rw [← hf]
      exact hfetch.trace events
    rw [step_apply, htrace, ← List.append_toArray, Array.toArray_toList]
    simp only [hexecute, he, Array.append_assoc]
    rfl
  · change e.2.cpu.regs.r = if f.1.instr = .ldSystem .r then _ else _
    rw [← he, execute_r, hregs]
    rfl
  · have hagain : (execute f.1.instr f.2).1 → (f.1.cost e.1 == f.1.cost true) = true := by
      intro htaken
      rw [← he, htaken, beq_self_eq_true]
    have hkept := execute_pc hagain (by rw [hregs, departs_streamed]; exact hstays)
    change e.2.cpu.regs.pc = _
    rw [← he, hkept, hregs]
    rfl

/-- From a machine on, an instruction fetches some opcodes and operands one after the
other, each once, and only then makes its other accesses. The refresh counter, read as in
`Registers.refresh_r_toNat`, and the program counter tell what it has passed, unless it
writes them itself. -/
structure Consumes (remaining : Nat) (m : Machine σ δ) (opcodes operands : List Byte)
    (data : List Bus.Event) : Prop where
  trace (events : Array Bus.Event) : stepAndSkip remaining (m.traced events) =
    ((stepAndSkip remaining m).1, (stepAndSkip remaining m).2.traced
      (events ++ (Bus.Event.fetches m.cpu.regs.pc opcodes operands ++ data).toArray))
  data_isFetch (e : Bus.Event) : e ∈ data → e.isFetch = false
  bounds : 1 ≤ opcodes.length ∧ opcodes.length ≤ 3
  passed : (step m).1.1.opcodes = Opcode.passed opcodes
  r : (stepAndSkip remaining m).2.cpu.regs.r =
    if [0xED, 0x4F] <:+ opcodes then m.cpu.regs.a
    else (Registers.refresh (Opcode.passed opcodes) m.cpu.regs).r
  pc : (step m).1.1.instr.departs m.cpu.regs
      ((stepAndSkip remaining m).1 == (step m).1.1.cost true) = false →
    (stepAndSkip remaining m).2.cpu.regs.pc =
      m.cpu.regs.pc + BitVec.ofNat 16 (Opcode.passed opcodes + operands.length)

theorem exists_consumes (remaining : Nat) {m : Machine σ δ}
    (h : m.cpu.config.loopAcceleration = false) :
    ∃ opcodes operands data, Consumes remaining m opcodes operands data := by
  obtain ⟨n, opcodes, operands, data, hreads, hdata, htrace, hr, hpc⟩ := exists_step_reads m
  have hstep := stepAndSkip_of_literal h remaining
  have htraced (events : Array Bus.Event) : stepAndSkip remaining (m.traced events) =
      ((step (m.traced events)).1.2, (step (m.traced events)).2) :=
    stepAndSkip_of_literal (m := m.traced events) h remaining
  refine ⟨opcodes, operands, data, ?_, hdata, hreads.length_bounds, ?_, ?_, ?_⟩
  · intro events
    rw [htraced, htrace, hstep]
  · rw [hreads.opcodes_eq, hreads.passed_eq]
  · simpa only [hstep, hreads.passed_eq, hreads.loads_refresh_iff] using hr
  · simpa only [hstep, hreads.passed_eq] using hpc

end Exec

/-- The refreshes of a moment: one for each opcode that is passed, one for an
interrupt and one for each unit of a halt. -/
def Moment.refreshes (x : Moment δ) : Nat :=
  match x.event with
  | .round .nmi | .round .irq => 1
  | .round .halt => (x.after.total - x.before.total) / Timing.haltUnit
  | .round (.instr op) => op.opcodes
  | .request _ => 0

/-- The refreshes of all moments of a log. -/
def Moment.refreshesIn : List (Moment δ) → Nat
  | [] => 0
  | x :: log => x.refreshes + refreshesIn log

namespace Registers

theorem r_placeless : Placeless Registers.r :=
  fun _ _ _ _ => rfl

end Registers

namespace Exec

theorem burnHalt_r (remaining : Nat) (m : Machine σ δ) :
    (burnHalt remaining m).2.cpu.regs.r =
      (Registers.refresh ((burnHalt remaining m).1 / Timing.haltUnit) m.cpu.regs).r := by
  have hunits : (burnHalt remaining m).1 / Timing.haltUnit = (remaining + 3) / Timing.haltUnit :=
    Nat.mul_div_cancel _ (Nat.succ_pos _)
  rw [hunits]
  rfl

section

variable [Bus σ]

theorem takeNmi_r (m : Machine σ δ) :
    (takeNmi m).2.cpu.regs.r = (Registers.refresh 1 m.cpu.regs).r := by
  have henter := Keeps.enter (σ := σ) (δ := δ) Registers.r_placeless nmiEntry
    (m.onCpu Cpu.acceptNmi)
  have haccept : m.cpu.acceptNmi.regs.r = (Registers.refresh 1 m.cpu.regs).r := by
    rw [Cpu.acceptNmi_regs]
  exact henter.trans haccept

variable [Peripheral δ]

theorem takeIrq_r (m : Machine σ δ) :
    (takeIrq m).2.cpu.regs.r = (Registers.refresh 1 m.cpu.regs).r := by
  obtain ⟨mode, data, n, hcpu, henter⟩ := takeIrq_enters m
  have haccept : m.cpu.acceptIrq.regs.r = (Registers.refresh 1 m.cpu.regs).r := by
    rw [Cpu.acceptIrq_regs]
  rw [henter, Keeps.enterMode Registers.r_placeless mode data n, hcpu]
  exact haccept

theorem step_r {m : Machine σ δ} (h : (step m).1.1.instr ≠ .ldSystem .r) :
    (step m).2.cpu.regs.r = (Registers.refresh (step m).1.1.opcodes m.cpu.regs).r := by
  obtain ⟨n, opcodes, operands, data, hreads, -, -, hr, -⟩ := exists_step_reads m
  rw [hr, if_neg h, hreads.opcodes_eq]

end

end Exec

namespace Machine

variable [Bus σ] [Peripheral δ]

/-- The opcodes that the instruction at the program counter is fetched by. -/
def opcodes (m : Machine σ δ) : List Byte :=
  (Exec.step (m.traced #[])).2.bus.events.toList.filterMap Bus.Event.opcode?

theorem exists_reads_opcodes (m : Machine σ δ) :
    ∃ n operands, Reads n m.opcodes operands (Exec.step m).1.1 := by
  obtain ⟨n, opcodes, operands, data, hreads, hdata, htrace, -, -⟩ := Exec.exists_step_reads m
  have hopcodes : m.opcodes = opcodes := by
    rw [Machine.opcodes, htrace #[], Array.empty_append]
    exact Bus.Event.filterMap_opcode?_fetches _ _ _ hdata
  exact ⟨n, operands, hopcodes ▸ hreads⟩

theorem advance_r (remaining : Nat) {m : Machine σ δ}
    (hliteral : m.cpu.config.loopAcceleration = false)
    (h : m.round.instr? ≠ some (.ldSystem .r)) :
    let r := Exec.advance remaining m
    r.2.cpu.regs.r =
      (Registers.refresh (Moment.refreshes ⟨m.cpu, .round m.round, (r.2.elapse r.1).cpu⟩)
        m.cpu.regs).r := by
  cases hboundary : m.cpu.boundary with
  | nmi =>
      rw [Exec.advance_nmi remaining hboundary]
      simp only [Moment.refreshes, round, hboundary, Exec.takeNmi_r]
  | irq =>
      rw [Exec.advance_irq remaining hboundary]
      simp only [Moment.refreshes, round, hboundary, Exec.takeIrq_r]
  | free =>
      cases hhalted : m.cpu.regs.halted with
      | true =>
          rw [Exec.advance_halted remaining hboundary hhalted]
          have htotal : (Exec.burnHalt remaining (m.onCpu Cpu.passDelay)).2.cpu.total =
              m.cpu.total := rfl
          simp only [Moment.refreshes, round, hboundary, hhalted, if_true, elapse_total, htotal,
            Nat.add_sub_cancel_left]
          exact Exec.burnHalt_r remaining (m.onCpu Cpu.passDelay)
      | false =>
          rw [Exec.advance_step remaining hboundary hhalted hliteral]
          simp only [round, hboundary, hhalted, Bool.false_eq_true, if_false, Round.instr?] at h
          simp only [Moment.refreshes, round, hboundary, hhalted, Bool.false_eq_true, if_false]
          exact Exec.step_r fun hload => h (congrArg some hload)

theorem runFor_r {remaining : Nat} {m : Machine σ δ}
    (hliteral : m.cpu.config.loopAcceleration = false)
    (h : ∀ x ∈ m.moments remaining, x.instr? ≠ some (.ldSystem .r)) :
    (m.runFor remaining).cpu.regs.r =
      (Registers.refresh (Moment.refreshesIn (m.moments remaining)) m.cpu.regs).r := by
  induction remaining, m using runFor_induction with
  | done m => rw [runFor_zero, moments_zero, Moment.refreshesIn, Registers.refresh_zero]
  | round remaining m hpos ih =>
      rw [moments_of_pos hpos] at h ⊢
      have hround := advance_r remaining hliteral (h _ List.mem_cons_self)
      have hconfig := congrArg Config.loopAcceleration (Exec.advance_config remaining m)
      have hrest := ih (hconfig.trans hliteral) fun x hx => h x (List.mem_cons_of_mem _ hx)
      -- The other registers differ from those that the sum starts with.
      rw [runFor_of_pos hpos, Moment.refreshesIn, ← Registers.refresh_refresh]
      refine hrest.trans (Registers.refresh_r_congr ?_ _)
      rw [elapse_regs]
      exact hround

/-- Every instruction goes by the law of the stream, and a run without a load of
the refresh counter refreshes once for each opcode that is passed, each interrupt and
each unit of a halt: bit 7 of the counter stays, and its low seven bits count them
modulo 128 (`Registers.refresh_r_toNat`). -/
theorem stream_refreshes (m : Machine σ δ) (h : m.cpu.config.loopAcceleration = false) :
    (∀ remaining, ∃ opcodes operands data, Exec.Consumes remaining m opcodes operands data) ∧
    ∀ budget : BitVec 32,
      (∀ x ∈ m.moments budget.toNat, x.instr? ≠ some (.ldSystem .r)) →
      (m.run budget).2.cpu.regs.r =
        (Registers.refresh (Moment.refreshesIn (m.moments budget.toNat)) m.cpu.regs).r :=
  ⟨fun remaining => Exec.exists_consumes remaining h, fun _ => runFor_r h⟩

/-- A non-maskable interrupt, a load at a displacement and a halt. The top bit of
the refresh counter stays. -/
theorem stream_refreshes_flat :
    let m : Machine Bus.Flat StateLatch :=
      ⟨{ regs := { r := 0xFF }, nmiPending := true, config := ⟨false⟩ },
        Bus.Flat.load 0x66 [0xDD, 0x7E, 0x05, 0x76] {}⟩
    m.cpu.config.loopAcceleration = false ∧
    (∃ opcodes operands data, Exec.Consumes 50 m opcodes operands data) ∧
    (∀ x ∈ m.moments 50, x.instr? ≠ some (.ldSystem .r)) ∧
    (m.run 50).2.cpu.regs.r = 0x87 := by
  intro m
  obtain ⟨hstep, hrun⟩ := stream_refreshes m rfl
  have hnone : ∀ x ∈ m.moments 50, x.instr? ≠ some (.ldSystem .r) := by
    decide +kernel
  exact ⟨rfl, hstep 50, hnone, (hrun 50 hnone).trans (by decide +kernel)⟩

end Machine
end Z80
