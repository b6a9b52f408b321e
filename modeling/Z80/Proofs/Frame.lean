import Z80.Accelerate

/-!
What an instruction can reach. An action on the machine commutes with a
change of the processor when the change can be made before it or after it
alike. Fetching and executing commute with every change outside the
registers; only a carry operation looks at `q`, and only a return from
interrupt at the chain. A change that sets all of the rest to what it is
already then tells that the action leaves the rest alone.
-/
namespace Z80

variable {σ δ α β : Type}

/-- The machine with another processor on the same bus. -/
def Machine.onCpu (φ : Cpu δ → Cpu δ) (m : Machine σ δ) : Machine σ δ :=
  ⟨φ m.cpu, m.bus⟩

def Machine.onRegs (g : Registers → Registers) : Machine σ δ → Machine σ δ :=
  Machine.onCpu (Cpu.modifyRegs g)

/-- A change of the processor outside its registers. -/
structure Cpu.Outer (φ : Cpu δ → Cpu δ) : Prop where
  regs (cpu : Cpu δ) : (φ cpu).regs = cpu.regs
  modifyRegs (g : Registers → Registers) (cpu : Cpu δ) :
    φ (cpu.modifyRegs g) = (φ cpu).modifyRegs g

/-- Everything but the registers as in another processor. -/
def Cpu.around (cpu inner : Cpu δ) : Cpu δ :=
  { cpu with regs := inner.regs }

theorem Cpu.around_outer (cpu : Cpu δ) : Outer cpu.around where
  regs _ := rfl
  modifyRegs _ _ := rfl

def Registers.start (r : Registers) : Registers :=
  { r with prepc := r.pc }

/-- What a return from interrupt does to the chain. -/
def Cpu.retiChain [Peripheral δ] (cpu : Cpu δ) : Cpu δ :=
  { cpu with chain := cpu.chain.map DaisyChain.reti }

namespace Exec

def Commutes (φ : Cpu δ → Cpu δ) (act : Exec σ δ α) : Prop :=
  ∀ m : Machine σ δ, act (m.onCpu φ) = ((act m).1, (act m).2.onCpu φ)

variable {φ : Cpu δ → Cpu δ}

theorem Commutes.pure (v : α) : Commutes φ (pure v : Exec σ δ α) :=
  fun _ => rfl

theorem Commutes.bind {x : Exec σ δ α} {g : α → Exec σ δ β} (hx : Commutes φ x)
    (hg : ∀ v, Commutes φ (g v)) : Commutes φ (x >>= g) := by
  intro m
  rw [bind_apply, bind_apply, hx m]
  exact hg _ _

theorem Commutes.discard {x : Exec σ δ α} (hx : Commutes φ x) : Commutes φ (discard x) := by
  intro m
  exact congrArg (fun r => ((), r.2)) (hx m)

theorem Commutes.ite {c : Prop} [Decidable c] {x y : Exec σ δ α} (hx : Commutes φ x)
    (hy : Commutes φ y) : Commutes φ (if c then x else y) := by
  split
  · exact hx
  · exact hy

theorem Commutes.onBus (act : StateM σ α) : Commutes φ (onBus act : Exec σ δ α) :=
  fun _ => rfl

theorem Commutes.modifyCpu {g : Cpu δ → Cpu δ} (hg : ∀ cpu, φ (g cpu) = g (φ cpu)) :
    Commutes φ (modifyCpu g : Exec σ δ Unit) := by
  intro m
  exact congrArg (fun cpu => ((), Machine.mk cpu m.bus)) (hg m.cpu).symm

/-- An action may look at the processor as far as the change cannot be seen. -/
theorem Commutes.cpu {g : Cpu δ → Exec σ δ α} (hg : ∀ cpu, g (φ cpu) = g cpu)
    (hact : ∀ cpu, Commutes φ (g cpu)) : Commutes φ (cpu >>= g) := by
  intro m
  change g (φ m.cpu) _ = _
  rw [hg]
  exact hact _ _

/-- An action that commutes with fixing the rest of the processor changes the
registers and the bus alone. -/
theorem Commutes.frame {act : Exec σ δ α} {m : Machine σ δ} (h : Commutes m.cpu.around act) :
    (act m).2.cpu = m.cpu.around (act m).2.cpu :=
  congrArg (fun r => r.2.cpu) (h m)

section

variable (h : Cpu.Outer φ)
include h

theorem Commutes.regs : Commutes φ (regs : Exec σ δ Registers) := by
  intro m
  exact congrArg (fun r => (r, m.onCpu φ)) (h.regs m.cpu)

theorem Commutes.modifyRegs (g : Registers → Registers) :
    Commutes φ (modifyRegs g : Exec σ δ Unit) :=
  .modifyCpu (h.modifyRegs g)

theorem Commutes.jump (w : Word) : Commutes φ (jump w : Exec σ δ Unit) :=
  .modifyRegs h _

theorem Commutes.address (m : Cell) : Commutes φ (address m : Exec σ δ Word) :=
  .bind (.regs h) fun _ => .bind (.modifyRegs h _) fun _ => .pure _

theorem Commutes.indirect (m : Indirect) : Commutes φ (indirect m : Exec σ δ Word) := by
  cases m <;> exact .bind (.regs h) fun _ => .pure _

theorem Commutes.onA (op : Byte → Flags → Result 8) : Commutes φ (onA op : Exec σ δ Unit) :=
  .modifyRegs h _

theorem Commutes.jumpRelative (d : Byte) : Commutes φ (jumpRelative d : Exec σ δ Unit) :=
  .bind (.regs h) fun _ => .jump h _

theorem Commutes.branchIf (cc : Condition) {act : Exec σ δ Unit} (hact : Commutes φ act) :
    Commutes φ (branchIf cc act) :=
  .bind (.regs h) fun _ => .ite (.bind hact fun _ => .pure _) (.pure _)

theorem Commutes.store (copy : Option Reg8) (v : Byte) :
    Commutes φ (bits.store copy v : Exec σ δ Unit) := by
  cases copy with
  | some r => exact .modifyRegs h _
  | none => exact .pure _

theorem Commutes.endRound (again : Bool) (last next : Flags) :
    Commutes φ (endRound again last next : Exec σ δ Bool) :=
  .bind (.modifyRegs h _) fun _ => .pure _

variable [Bus σ]

omit h in
theorem Commutes.read16 (a : Word) : Commutes φ (read16 a : Exec σ δ Word) :=
  .bind (.onBus _) fun _ => .bind (.onBus _) fun _ => .pure _

omit h in
theorem Commutes.write16 (a w : Word) : Commutes φ (write16 a w : Exec σ δ Unit) :=
  .bind (.onBus _) fun _ => .onBus _

theorem Commutes.push (w : Word) : Commutes φ (push w : Exec σ δ Unit) :=
  .bind (.regs h) fun _ => .bind (.onBus _) fun _ => .bind (.onBus _) fun _ => .modifyRegs h _

theorem Commutes.pop : Commutes φ (pop : Exec σ δ Word) :=
  .bind (.regs h) fun _ => .bind (.read16 _) fun _ => .bind (.modifyRegs h _) fun _ => .pure _

theorem Commutes.peekOpcode : Commutes φ (peekOpcode : Exec σ δ Byte) :=
  .bind (.regs h) fun _ => .onBus _

theorem Commutes.fetchOpcode : Commutes φ (fetchOpcode : Exec σ δ Byte) :=
  .bind (.peekOpcode h) fun _ => .bind (.modifyRegs h _) fun _ => .pure _

theorem Commutes.fetchOperand : Commutes φ (fetchOperand : Exec σ δ Byte) :=
  .bind (.regs h) fun _ => .bind (.onBus _) fun _ => .bind (.modifyRegs h _) fun _ => .pure _

theorem Commutes.fetchForm (form : Form) : Commutes φ (fetchForm form : Exec σ δ Instr) := by
  cases form with
  | fixed i => exact .pure i
  | byte make => exact .bind (.fetchOperand h) fun _ => .pure _
  | word make =>
      exact .bind (.fetchOperand h) fun _ => .bind (.fetchOperand h) fun _ => .pure _

theorem Commutes.fetchIndexed (p : Pointer) :
    Commutes φ (fetchIndexed p : Exec σ δ Operation) := by
  apply Commutes.bind (.peekOpcode h)
  intro op
  cases Opcode.decode p op with
  | index q => exact .pure _
  | instr form => exact .bind (.modifyRegs h _) fun _ => .bind (.fetchForm h form) fun _ => .pure _
  | bits =>
      exact .bind (.modifyRegs h _) fun _ => .bind (.fetchOperand h) fun _ =>
        .bind (.fetchOperand h) fun _ => .pure _
  | extended =>
      exact .bind (.modifyRegs h _) fun _ => .bind (.fetchOpcode h) fun _ =>
        .bind (.fetchForm h _) fun _ => .pure _

theorem Commutes.fetch : Commutes φ (fetch : Exec σ δ Operation) := by
  apply Commutes.bind (.fetchOpcode h)
  intro op
  cases Opcode.decode .hl op with
  | index p => exact .fetchIndexed h p
  | instr form => exact .bind (.fetchForm h form) fun _ => .pure _
  | bits => exact .bind (.fetchOpcode h) fun _ => .pure _
  | extended => exact .bind (.fetchOpcode h) fun _ => .bind (.fetchForm h _) fun _ => .pure _

theorem Commutes.readPlace (p : Place) : Commutes φ (readPlace p : Exec σ δ Byte) := by
  cases p with
  | reg r => exact .bind (.regs h) fun _ => .pure _
  | mem m => exact .bind (.address h m) fun _ => .onBus _

theorem Commutes.modifyPlace (p : Place) (op : Byte → Flags → Result 8) :
    Commutes φ (modifyPlace p op : Exec σ δ Byte) := by
  cases p with
  | reg r => exact .bind (.regs h) fun _ => .bind (.modifyRegs h _) fun _ => .pure _
  | mem m =>
      exact .bind (.address h m) fun _ => .bind (.onBus _) fun _ => .bind (.regs h) fun _ =>
        .bind (.onBus _) fun _ => .bind (.modifyRegs h _) fun _ => .pure _

theorem Commutes.callTo (addr : Word) : Commutes φ (callTo addr : Exec σ δ Unit) :=
  .bind (.regs h) fun _ => .bind (.push h _) fun _ => .modifyRegs h _

theorem Commutes.ret : Commutes φ (ret : Exec σ δ Unit) :=
  .bind (.pop h) fun _ => .jump h _

theorem Commutes.bits (op : BitOp) (p : Place) (copy : Option Reg8) :
    Commutes φ (bits op p copy : Exec σ δ Unit) := by
  cases op with
  | bit n => exact .bind (.readPlace h p) fun _ => .bind (.regs h) fun _ => .modifyRegs h _
  | rotate _ | res _ | set _ => exact .bind (.modifyPlace h p _) fun _ => .store h copy _

theorem Commutes.rotateDigits (ra rm : (a m : Byte) → Byte) :
    Commutes φ (rotateDigits ra rm : Exec σ δ Unit) :=
  .bind (.regs h) fun _ => .bind (.onBus _) fun _ => .bind (.onBus _) fun _ => .modifyRegs h _

theorem Commutes.block (kind : BlockKind) (dir : Direction) (repeats : Bool) :
    Commutes φ (block kind dir repeats : Exec σ δ Bool) := by
  cases kind with
  | copy | input | output =>
      exact .bind (.regs h) fun _ => .bind (.onBus _) fun _ => .bind (.onBus _) fun _ =>
        .bind (.modifyRegs h _) fun _ => .endRound h _ _ _
  | search =>
      exact .bind (.regs h) fun _ => .bind (.onBus _) fun _ =>
        .bind (.modifyRegs h _) fun _ => .endRound h _ _ _

variable [Peripheral δ]

theorem Commutes.plain (i : Instr)
    (hq : i = .scf ∨ i = .ccf → ∀ cpu : Cpu δ, (φ cpu).q = cpu.q)
    (hr : i = .reti → ∀ cpu : Cpu δ, φ cpu.retiChain = (φ cpu).retiChain) :
    Commutes φ (plain i : Exec σ δ Unit) := by
  cases i with
  | ld _ _ | ldImm _ _ | ldFromSystem _ | ldImm16 _ _ | ldSP _ | exDEHL | exAF | exx | inc16 _
  | dec16 _ | add16 _ _ | adc16 _ | sbc16 _ | daa | cpl | neg | rotateA _ | jp _ | jpIf _ _
  | jpPointer _ | halt | di | ei | im _ => exact .modifyRegs h _
  | ldSystem dst => cases dst <;> exact .modifyRegs h _
  | load _ m => exact .bind (.address h m) fun _ => .bind (.onBus _) fun _ => .modifyRegs h _
  | store m _ => exact .bind (.address h m) fun _ => .bind (.regs h) fun _ => .onBus _
  | storeImm m _ => exact .bind (.address h m) fun _ => .onBus _
  | loadA src =>
      exact .bind (.indirect h src) fun _ => .bind (.onBus _) fun _ => .modifyRegs h _
  | storeA dst =>
      exact .bind (.indirect h dst) fun _ => .bind (.regs h) fun _ => .bind (.onBus _) fun _ =>
        .modifyRegs h _
  | loadPointer _ _ | load16 _ _ => exact .bind (.read16 _) fun _ => .modifyRegs h _
  | storePointer _ _ | store16 _ _ =>
      exact .bind (.regs h) fun _ => .bind (.write16 _ _) fun _ => .modifyRegs h _
  | push _ => exact .bind (.regs h) fun _ => .push h _
  | pop _ => exact .bind (.pop h) fun _ => .modifyRegs h _
  | exSP _ =>
      exact .bind (.regs h) fun _ => .bind (.read16 _) fun _ => .bind (.write16 _ _) fun _ =>
        .modifyRegs h _
  | alu _ src => exact .bind (.readPlace h src) fun _ => .onA h _
  | aluImm _ _ =>
      simp only [Exec.plain]
      exact .onA h _
  | inc p | dec p => exact .discard (.modifyPlace h p _)
  | scf | ccf =>
      refine .cpu (fun cpu => ?_) fun _ => .modifyRegs h _
      rw [hq (by simp)]
  | bits op p copy => exact .bits h op p copy
  | rrd | rld =>
      simp only [Exec.plain]
      exact .rotateDigits h _ _
  | jr d => exact .jumpRelative h d
  | call _ | rst _ => exact .bind (.modifyRegs h _) fun _ => .callTo h _
  | ret => exact .ret h
  | retn => exact .bind (.ret h) fun _ => .modifyRegs h _
  | reti =>
      exact .bind (.ret h) fun _ => .bind (.modifyRegs h _) fun _ => .modifyCpu (hr rfl)
  | inA _ | outA _ | inC _ | outC _ =>
      exact .bind (.regs h) fun _ => .bind (.onBus _) fun _ => .modifyRegs h _
  | nop | undefined | jrIf _ _ | djnz _ | callIf _ _ | retIf _ | block _ _ _ => exact .pure _

theorem Commutes.execute (i : Instr)
    (hq : i = .scf ∨ i = .ccf → ∀ cpu : Cpu δ, (φ cpu).q = cpu.q)
    (hr : i = .reti → ∀ cpu : Cpu δ, φ cpu.retiChain = (φ cpu).retiChain) :
    Commutes φ (execute i : Exec σ δ Bool) := by
  cases i with
  | jrIf cc d => exact .branchIf h cc (.jumpRelative h d)
  | djnz d =>
      exact .bind (.regs h) fun _ => .bind (.modifyRegs h _) fun _ =>
        .ite (.bind (.jumpRelative h d) fun _ => .pure _) (.pure _)
  | callIf cc addr => exact .bind (.modifyRegs h _) fun _ => .branchIf h cc (.callTo h addr)
  | retIf cc => exact .branchIf h cc (.ret h)
  | block kind dir repeats => exact .block h kind dir repeats
  | _ => exact .bind (.plain h _ hq hr) fun _ => .pure _

end

section

variable [Bus σ]

theorem fetch_frame (m : Machine σ δ) : (fetch m).2.cpu = m.cpu.around (fetch m).2.cpu :=
  (Commutes.fetch m.cpu.around_outer).frame

variable [Peripheral δ]

theorem execute_frame (i : Instr) (m : Machine σ δ) :
    (execute i m).2.cpu =
      (if i = .reti then m.cpu.retiChain else m.cpu).around (execute i m).2.cpu := by
  -- The return from interrupt and the carry operations look outside the
  -- registers, so `Commutes.execute` has nothing to say of them.
  by_cases hr : i = .reti
  · subst hr
    rfl
  by_cases hq : i = .scf ∨ i = .ccf
  · rcases hq with rfl | rfl <;> rfl
  · rw [if_neg hr]
    exact (Commutes.execute m.cpu.around_outer i (absurd · hq) (absurd · hr)).frame

theorem step_apply (m : Machine σ δ) :
    step m =
      let f := fetch (m.onRegs Registers.start)
      let e := execute f.1.instr f.2
      ((f.1, f.1.cost e.1), e.2.onCpu (Cpu.retire f.1.instr)) := rfl

end
end Exec
end Z80
