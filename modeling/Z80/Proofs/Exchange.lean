import Z80.Bus.Flat
import Z80.Daisy.StateLatch
import Z80.Proofs.Pages
import Z80.Proofs.Path

/-!
An index prefix as an exchange of registers. Behind the prefix a code of the
main page names the halves of an index register where it would name those of
HL. So the instruction does to that register what it does to HL without the
prefix, and the prefix adds four T-states and one refresh.
-/
namespace Z80

variable {σ δ α β : Type}

/-! The exchange of HL with a pointer: of the names, of the registers, and of
the names in an instruction. -/

def Reg8.exchange : Reg8 → Pointer → Reg8
  | .h, p => p.high
  | .l, p => p.low
  | .ixh, .ix => .h
  | .ixl, .ix => .l
  | .iyh, .iy => .h
  | .iyl, .iy => .l
  | r, _ => r

def Reg16.exchange : Reg16 → Pointer → Reg16
  | .hl, p => p.pair
  | .ix, .ix => .hl
  | .iy, .iy => .hl
  | r, _ => r

def Pointer.exchange : Pointer → Pointer → Pointer
  | .hl, p => p
  | .ix, .ix => .hl
  | .iy, .iy => .hl
  | q, _ => q

def Registers.exchange (p : Pointer) (r : Registers) : Registers :=
  match p with
  | .hl => r
  | .ix => { r with h := r.ixh, l := r.ixl, ixh := r.h, ixl := r.l }
  | .iy => { r with h := r.iyh, l := r.iyl, iyh := r.h, iyl := r.l }

namespace Instr

def exchange (p : Pointer) : Instr → Instr
  | .ld dst src => .ld (dst.exchange p) (src.exchange p)
  | .ldImm dst n => .ldImm (dst.exchange p) n
  | .ldImm16 dst nn => .ldImm16 (dst.exchange p) nn
  | .loadPointer dst addr => .loadPointer (dst.exchange p) addr
  | .storePointer addr src => .storePointer addr (src.exchange p)
  | .ldSP src => .ldSP (src.exchange p)
  | .push src => .push (src.exchange p)
  | .pop dst => .pop (dst.exchange p)
  | .exSP q => .exSP (q.exchange p)
  | .alu op (.reg r) => .alu op (.reg (r.exchange p))
  | .inc (.reg r) => .inc (.reg (r.exchange p))
  | .dec (.reg r) => .dec (.reg (r.exchange p))
  | .inc16 r => .inc16 (r.exchange p)
  | .dec16 r => .dec16 (r.exchange p)
  | .add16 q src => .add16 (q.exchange p) (src.exchange p)
  | .jpPointer q => .jpPointer (q.exchange p)
  | i => i

/-- An instruction of the main page that names what it uses of HL and of the
index registers. The two exchanges have HL built in, so for them only the
exchange of HL with itself is one of names. -/
def isExplicit (p : Pointer) : Instr → Bool
  | .exDEHL | .exx => p = .hl
  | .load .. | .store .. | .storeImm .. | .alu _ (.mem _) | .inc (.mem _) | .dec (.mem _)
  | .ldSystem _ | .ldFromSystem _ | .load16 .. | .store16 .. | .adc16 _ | .sbc16 _ | .bits ..
  | .rrd | .rld | .inC _ | .outC _ | .block .. => false
  | _ => true

theorem cost_exchange (p : Pointer) (i : Instr) : (i.exchange p).cost = i.cost := by
  unfold exchange
  split <;> rfl

theorem extra_exchange (p : Pointer) (i : Instr) : (i.exchange p).extra = i.extra := by
  unfold exchange
  split <;> rfl

end Instr

namespace Registers

/-- The registers behind a prefix at `addr`, with HL exchanged. -/
def mirror (p : Pointer) (addr : Word) (r : Registers) : Registers :=
  { refresh 1 (r.exchange p) with prepc := addr }

section

variable (p : Pointer) (addr : Word) (r : Registers)

@[simp] theorem mirror_a : (r.mirror p addr).a = r.a := by cases p <;> rfl

@[simp] theorem mirror_f : (r.mirror p addr).f = r.f := by cases p <;> rfl

@[simp] theorem mirror_sp : (r.mirror p addr).sp = r.sp := by cases p <;> rfl

@[simp] theorem mirror_pc : (r.mirror p addr).pc = r.pc := by cases p <;> rfl

theorem reg8_mirror (x : Reg8) : (r.mirror p addr).reg8 (x.exchange p) = r.reg8 x := by
  cases p <;> cases x <;> rfl

theorem setReg8_mirror (x : Reg8) (v : Byte) :
    (r.mirror p addr).setReg8 (x.exchange p) v = (r.setReg8 x v).mirror p addr := by
  cases p <;> cases x <;> rfl

theorem reg16_mirror (x : Reg16) : (r.mirror p addr).reg16 (x.exchange p) = r.reg16 x := by
  cases p <;> cases x <;> rfl

theorem setReg16_mirror (x : Reg16) (w : Word) :
    (r.mirror p addr).setReg16 (x.exchange p) w = (r.setReg16 x w).mirror p addr := by
  cases p <;> cases x <;> rfl

theorem pointer_mirror (q : Pointer) : (r.mirror p addr).pointer (q.exchange p) = r.pointer q := by
  cases p <;> cases q <;> rfl

theorem setPointer_mirror (q : Pointer) (w : Word) :
    (r.mirror p addr).setPointer (q.exchange p) w = (r.setPointer q w).mirror p addr := by
  cases p <;> cases q <;> rfl

end

end Registers

namespace Exec

/-- The one action does on the mirrored registers what the other does on the
registers themselves. -/
def Mirrors (p : Pointer) (addr : Word) (x y : Exec σ δ α) : Prop :=
  ∀ m : Machine σ δ,
    x (m.onRegs (Registers.mirror p addr)) = ((y m).1, (y m).2.onRegs (Registers.mirror p addr))

section

variable {p : Pointer} {addr : Word}

theorem Mirrors.pure (v : α) : Mirrors p addr (pure v : Exec σ δ α) (pure v) :=
  fun _ => rfl

theorem Mirrors.bind {x y : Exec σ δ α} {g k : α → Exec σ δ β} (hxy : Mirrors p addr x y)
    (hgk : ∀ v, Mirrors p addr (g v) (k v)) : Mirrors p addr (x >>= g) (y >>= k) := by
  intro m
  rw [bind_apply, bind_apply, hxy m]
  exact hgk _ _

theorem Mirrors.ite {c : Prop} [Decidable c] {x x' y y' : Exec σ δ α} (hx : Mirrors p addr x x')
    (hy : Mirrors p addr y y') : Mirrors p addr (if c then x else y) (if c then x' else y') := by
  split
  · exact hx
  · exact hy

theorem Mirrors.onBus (act : StateM σ α) :
    Mirrors p addr (onBus act : Exec σ δ α) (onBus act) :=
  fun _ => rfl

theorem Mirrors.modifyRegs {g k : Registers → Registers}
    (h : ∀ r, g (r.mirror p addr) = (k r).mirror p addr) :
    Mirrors p addr (modifyRegs g : Exec σ δ Unit) (modifyRegs k) := by
  intro m
  exact congrArg (fun r => ((), m.onRegs fun _ => r)) (h m.cpu.regs)

/-- What is read off the registers may differ, as long as the rest of the
action mirrors the rest of the other one. -/
theorem Mirrors.regs {g k : Registers → Exec σ δ α}
    (h : ∀ r, Mirrors p addr (g (r.mirror p addr)) (k r)) :
    Mirrors p addr (regs >>= g) (regs >>= k) :=
  fun m => h m.cpu.regs m

theorem Mirrors.cpu {g k : Cpu δ → Exec σ δ α}
    (h : ∀ cpu, Mirrors p addr (g (cpu.modifyRegs (Registers.mirror p addr))) (k cpu)) :
    Mirrors p addr (cpu >>= g) (cpu >>= k) :=
  fun m => h m.cpu m

theorem Mirrors.jump (w : Word) : Mirrors p addr (jump w : Exec σ δ Unit) (jump w) :=
  .modifyRegs fun _ => by cases p <;> rfl

theorem Mirrors.latch (w : Word) : Mirrors p addr (latch w : Exec σ δ Unit) (latch w) :=
  .modifyRegs fun _ => by cases p <;> rfl

theorem Mirrors.onA (op : Byte → Flags → Result 8) :
    Mirrors p addr (onA op : Exec σ δ Unit) (onA op) :=
  .modifyRegs fun _ => by cases p <;> rfl

theorem Mirrors.indirect (src : Indirect) :
    Mirrors p addr (indirect src : Exec σ δ Word) (indirect src) := by
  cases src with
  | bc | de => exact .regs fun _ => by cases p <;> exact .pure _
  | absolute _ => exact .pure _

theorem Mirrors.jumpRelative (d : Byte) :
    Mirrors p addr (jumpRelative d : Exec σ δ Unit) (jumpRelative d) :=
  .regs fun _ => by cases p <;> exact .jump _

theorem Mirrors.branchIf (cc : Condition) {x y : Exec σ δ Unit} (h : Mirrors p addr x y) :
    Mirrors p addr (branchIf cc x) (branchIf cc y) :=
  .regs fun _ => by cases p <;> exact .ite (.bind h fun _ => .pure _) (.pure _)

variable [Bus σ]

theorem Mirrors.read16 (a : Word) : Mirrors p addr (read16 a : Exec σ δ Word) (read16 a) :=
  .bind (.onBus _) fun _ => .bind (.onBus _) fun _ => .pure _

theorem Mirrors.write16 (a w : Word) :
    Mirrors p addr (write16 a w : Exec σ δ Unit) (write16 a w) :=
  .bind (.onBus _) fun _ => .onBus _

theorem Mirrors.push (w : Word) : Mirrors p addr (push w : Exec σ δ Unit) (push w) := by
  refine .regs fun r => ?_
  rw [Registers.mirror_sp]
  exact .bind (.onBus _) fun _ => .bind (.onBus _) fun _ => .modifyRegs fun _ => by
    cases p <;> rfl

theorem Mirrors.pop : Mirrors p addr (pop : Exec σ δ Word) pop := by
  refine .regs fun r => ?_
  rw [Registers.mirror_sp]
  exact .bind (.read16 _) fun _ => .bind (.modifyRegs fun _ => by cases p <;> rfl) fun _ =>
    .pure _

/-- A register is replaced by the result of an operation on it. -/
theorem Mirrors.modifyReg (x : Reg8) (op : Byte → Flags → Result 8) :
    Mirrors p addr (modifyPlace (.reg (x.exchange p)) op : Exec σ δ Byte)
      (modifyPlace (.reg x) op) := by
  refine .regs fun r => ?_
  simp only [Registers.reg8_mirror, Registers.mirror_f]
  refine .bind (.modifyRegs fun s => ?_) fun _ => .pure _
  rw [Registers.setReg8_mirror]
  cases p <;> rfl

theorem Mirrors.ret : Mirrors p addr (ret : Exec σ δ Unit) ret :=
  .bind .pop fun w => .jump w

theorem Mirrors.callTo (w : Word) : Mirrors p addr (callTo w : Exec σ δ Unit) (callTo w) := by
  refine .regs fun r => ?_
  rw [Registers.mirror_pc]
  exact .bind (.push _) fun _ => .modifyRegs fun _ => by cases p <;> rfl

variable [Peripheral δ]

theorem Mirrors.plain {i : Instr} (h : i.isExplicit p) :
    Mirrors p addr (plain (i.exchange p) : Exec σ δ Unit) (plain i) := by
  cases i with
  | load _ _ | store _ _ | storeImm _ _ | ldSystem _ | ldFromSystem _ | load16 _ _ | store16 _ _
  | adc16 _ | sbc16 _ | bits _ _ _ | rrd | rld | inC _ | outC _ | block _ _ _ => cases h
  | ld dst src =>
      refine .modifyRegs fun r => ?_
      rw [Registers.reg8_mirror, Registers.setReg8_mirror]
  | ldImm dst n => exact .modifyRegs fun r => Registers.setReg8_mirror p addr r dst n
  | ldImm16 dst nn => exact .modifyRegs fun r => Registers.setReg16_mirror p addr r dst nn
  | loadA src =>
      exact .bind (.indirect src) fun _ => .bind (.onBus _) fun _ =>
        .modifyRegs fun _ => by cases p <;> rfl
  | storeA dst =>
      refine .bind (.indirect dst) fun _ => .regs fun r => ?_
      rw [Registers.mirror_a]
      exact .bind (.onBus _) fun _ => .modifyRegs fun _ => by cases p <;> rfl
  | loadPointer dst a =>
      refine .bind (.read16 a) fun w => .modifyRegs fun r => ?_
      rw [Registers.setPointer_mirror]
      cases p <;> rfl
  | storePointer a src =>
      refine .regs fun r => ?_
      rw [Registers.pointer_mirror]
      exact .bind (.write16 a _) fun _ => .latch _
  | ldSP src =>
      refine .modifyRegs fun r => ?_
      rw [Registers.pointer_mirror]
      cases p <;> rfl
  | push src =>
      refine .regs fun r => ?_
      rw [Registers.reg16_mirror]
      exact .push _
  | pop dst =>
      exact .bind .pop fun w => .modifyRegs fun r => Registers.setReg16_mirror p addr r dst w
  | exSP q =>
      refine .regs fun r => ?_
      rw [Registers.pointer_mirror, Registers.mirror_sp]
      refine .bind (.read16 _) fun w => .bind (.write16 _ _) fun _ => .modifyRegs fun r => ?_
      rw [Registers.setPointer_mirror]
      cases p <;> rfl
  | exDEHL | exx =>
      obtain rfl : p = .hl := of_decide_eq_true h
      exact .modifyRegs fun _ => rfl
  | alu op src =>
      cases src with
      | reg x =>
          refine .bind (.regs fun r => ?_) fun v => .onA _
          rw [Registers.reg8_mirror]
          exact .pure _
      | mem _ => cases h
  | inc dst | dec dst =>
      cases dst with
      | reg x => exact .bind (.modifyReg x _) fun _ => .pure _
      | mem _ => cases h
  | inc16 x | dec16 x =>
      refine .modifyRegs fun r => ?_
      rw [Registers.reg16_mirror, Registers.setReg16_mirror]
  | add16 q src =>
      refine .modifyRegs fun r => ?_
      simp only [Registers.pointer_mirror, Registers.reg16_mirror, Registers.mirror_f,
        Registers.setPointer_mirror]
      cases p <;> rfl
  | jpPointer q =>
      refine .modifyRegs fun r => ?_
      rw [Registers.pointer_mirror]
      cases p <;> rfl
  | daa | cpl | rotateA _ => exact .onA _
  | aluImm _ _ | neg =>
      simp only [Exec.plain, Instr.exchange]
      exact .onA _
  | exAF | jpIf _ _ | halt | di | ei | im _ => exact .modifyRegs fun _ => by cases p <;> rfl
  | scf | ccf => exact .cpu fun _ => .modifyRegs fun _ => by cases p <;> rfl
  | jp a => exact .jump a
  | jr d => exact .jumpRelative d
  | call a | rst a => exact .bind (.latch a) fun _ => .callTo a
  | ret => exact .ret
  | retn => exact .bind .ret fun _ => .modifyRegs fun _ => by cases p <;> rfl
  | reti =>
      exact .bind .ret fun _ => .bind (.modifyRegs fun _ => by cases p <;> rfl) fun _ _ => rfl
  | inA n =>
      refine .regs fun r => ?_
      rw [Registers.mirror_a]
      exact .bind (.onBus _) fun _ => .modifyRegs fun _ => by cases p <;> rfl
  | outA n =>
      refine .regs fun r => ?_
      rw [Registers.mirror_a]
      exact .bind (.onBus _) fun _ => .latch _
  | nop | undefined | jrIf _ _ | djnz _ | callIf _ _ | retIf _ => exact .pure _

theorem Mirrors.execute {i : Instr} (h : i.isExplicit p) :
    Mirrors p addr (execute (i.exchange p) : Exec σ δ Bool) (execute i) := by
  have hplain : Mirrors p addr (Exec.plain (i.exchange p) : Exec σ δ Unit) (Exec.plain i) :=
    .plain h
  cases i with
  | jrIf cc d => exact .branchIf cc (.jumpRelative d)
  | djnz d =>
      refine .regs fun r => ?_
      have hb : (r.mirror p addr).b = r.b := by cases p <;> rfl
      rw [hb]
      exact .bind (.modifyRegs fun _ => by cases p <;> rfl) fun _ =>
        .ite (.bind (.jumpRelative d) fun _ => .pure _) (.pure _)
  | callIf cc a => exact .bind (.latch a) fun _ => .branchIf cc (.callTo a)
  | retIf cc => exact .branchIf cc .ret
  | block _ _ _ => cases h
  | alu _ src | inc src | dec src =>
      cases src with
      | reg _ => exact .bind hplain fun _ => .pure _
      | mem _ => cases h
  | _ => exact .bind hplain fun _ => .pure _

end

end Exec

namespace Form

def map (f : Instr → Instr) : Form → Form
  | .fixed i => .fixed (f i)
  | .byte make => .byte fun n => f (make n)
  | .word make => .word fun w => f (make w)

@[simp] theorem length_map (f : Instr → Instr) (form : Form) :
    (form.map f).length = form.length := by
  cases form <;> rfl

@[simp] theorem fill_map (f : Instr → Instr) (form : Form) (first second : Byte) :
    (form.map f).fill first second = f (form.fill first second) := by
  cases form <;> rfl

end Form

/-! A code of the main page that is not on the cell of HL decodes behind a
prefix to the same instruction with HL exchanged. -/

theorem Reg16.exchange_ofCode (p : Pointer) (code : Nat) :
    (Reg16.ofCode .hl code).exchange p = Reg16.ofCode p code := by
  match code with
  | 0 | 1 | 2 => rfl
  | _ + 3 => rfl

theorem Reg16.exchange_ofStackCode (p : Pointer) (code : Nat) :
    (Reg16.ofStackCode .hl code).exchange p = Reg16.ofStackCode p code := by
  match code with
  | 0 | 1 | 2 => rfl
  | _ + 3 => rfl

theorem Reg8.ofCode_eq_none_iff (code : Nat) : Reg8.ofCode code = none ↔ code = 6 := by
  match code with
  | 0 | 1 | 2 | 3 | 4 | 5 | 6 | _ + 7 => simp [Reg8.ofCode]

theorem Reg8.exchange_half {code : Nat} {r : Reg8} (h : Reg8.ofCode code = some r) (p : Pointer) :
    (Pointer.hl.half r).exchange p = p.half r := by
  match code with
  | 0 | 1 | 2 | 3 | 4 | 5 | 6 | _ + 7 => cases h <;> rfl

namespace Opcode

/-- One form is the other with HL exchanged, and names all it uses of HL. -/
structure Exchanges (p : Pointer) (form behind : Form) : Prop where
  behind_eq : behind = form.map (Instr.exchange p)
  explicit (first second : Byte) : (form.fill first second).isExplicit p

variable {p : Pointer}

theorem Exchanges.fixed {i j : Instr} (hj : j = i.exchange p) (hi : i.isExplicit p) :
    Exchanges p (.fixed i) (.fixed j) :=
  ⟨congrArg Form.fixed hj, fun _ _ => hi⟩

theorem Exchanges.byte {make other : Byte → Instr} (h : ∀ n, other n = (make n).exchange p)
    (hmake : ∀ n, (make n).isExplicit p) : Exchanges p (.byte make) (.byte other) :=
  ⟨congrArg Form.byte (funext h), fun _ _ => hmake _⟩

theorem Exchanges.word {make other : Word → Instr} (h : ∀ w, other w = (make w).exchange p)
    (hmake : ∀ w, (make w).isExplicit p) : Exchanges p (.word make) (.word other) :=
  ⟨congrArg Form.word (funext h), fun _ _ => hmake _⟩

theorem exchanges_onPlace {code : Nat} (hcode : code ≠ 6) {make : Place → Instr}
    (h : ∀ r : Reg8, make (.reg (r.exchange p)) = (make (.reg r)).exchange p)
    (hmake : ∀ r, (make (.reg r)).isExplicit p) :
    Exchanges p (onPlace .hl code make) (onPlace p code make) := by
  simp only [onPlace]
  cases hr : Reg8.ofCode code with
  | some r =>
      refine .fixed ?_ (hmake _)
      rw [← h, Reg8.exchange_half hr]
  | none => exact absurd ((Reg8.ofCode_eq_none_iff code).mp hr) hcode

theorem exchanges_lowQuarter {op : Byte} (h : middle op = 6 → bottom op ∉ [4, 5, 6]) :
    Exchanges p (lowQuarter .hl op) (lowQuarter p op) := by
  have hpair := Reg16.exchange_ofCode p (pairCode op)
  have hmiddle (hb : bottom op ∈ [4, 5, 6]) : middle op ≠ 6 := fun h6 => h h6 hb
  simp only [lowQuarter]
  split
  · split
    · exact .fixed rfl rfl
    · exact .fixed rfl rfl
    · exact .byte (fun _ => rfl) fun _ => rfl
    · exact .byte (fun _ => rfl) fun _ => rfl
    · exact .byte (fun _ => rfl) fun _ => rfl
  · split
    · exact .fixed (by rw [Instr.exchange, hpair]; rfl) rfl
    · exact .word (fun _ => by rw [Instr.exchange, hpair]) fun _ => rfl
  · split <;> first | exact .fixed rfl rfl | exact .word (fun _ => rfl) fun _ => rfl
  · split
    · exact .fixed (by rw [Instr.exchange, hpair]) rfl
    · exact .fixed (by rw [Instr.exchange, hpair]) rfl
  · exact exchanges_onPlace (hmiddle (by simp [*])) (fun _ => rfl) fun _ => rfl
  · exact exchanges_onPlace (hmiddle (by simp [*])) (fun _ => rfl) fun _ => rfl
  · cases hr : Reg8.ofCode (middle op) with
    | some r => exact .byte (fun n => by rw [Instr.exchange, Reg8.exchange_half hr]) fun _ => rfl
    | none => exact absurd ((Reg8.ofCode_eq_none_iff _).mp hr) (hmiddle (by simp [*]))
  · split <;> exact .fixed rfl rfl

theorem exchanges_loads {op : Byte} (h : middle op = 6 ↔ bottom op = 6) :
    Exchanges p (loads .hl op) (loads p op) := by
  simp only [loads]
  rw [← Reg8.ofCode_eq_none_iff, ← Reg8.ofCode_eq_none_iff] at h
  cases hdst : Reg8.ofCode (middle op) with
  | some dst =>
      cases hsrc : Reg8.ofCode (bottom op) with
      | some src =>
          refine .fixed ?_ rfl
          rw [Instr.exchange, Reg8.exchange_half hdst, Reg8.exchange_half hsrc]
      | none => simp [hdst, hsrc] at h
  | none =>
      rw [h.mp hdst]
      exact .fixed rfl rfl

theorem exchanges_highQuarter {op : Byte} {form : Form} (h : highQuarter .hl op = .instr form)
    (hde : ¬(bottom op = 3 ∧ middle op = 5))
    (hexx : ¬(bottom op = 1 ∧ oddRow op ∧ pairCode op = 1)) :
    ∃ behind, highQuarter p op = .instr behind ∧ Exchanges p form behind := by
  have hpair := Reg16.exchange_ofStackCode p (pairCode op)
  simp only [highQuarter] at h ⊢
  split at h
  · cases h
    exact ⟨_, rfl, .fixed rfl rfl⟩
  · rename_i hb
    split at h
    · rename_i hodd
      rw [if_pos hodd]
      split at h
      · cases h
        exact ⟨_, rfl, .fixed rfl rfl⟩
      · rename_i hcode
        exact absurd ⟨hb, hodd, hcode⟩ hexx
      · cases h
        exact ⟨_, rfl, .fixed rfl rfl⟩
      · cases h
        exact ⟨_, rfl, .fixed rfl rfl⟩
    · rename_i hodd
      rw [if_neg hodd]
      cases h
      exact ⟨_, rfl, .fixed (by rw [Instr.exchange, hpair]) rfl⟩
  · cases h
    exact ⟨_, rfl, .word (fun _ => rfl) fun _ => rfl⟩
  · rename_i hb
    split at h
    · cases h
      exact ⟨_, rfl, .word (fun _ => rfl) fun _ => rfl⟩
    · cases h
    · cases h
      exact ⟨_, rfl, .byte (fun _ => rfl) fun _ => rfl⟩
    · cases h
      exact ⟨_, rfl, .byte (fun _ => rfl) fun _ => rfl⟩
    · cases h
      exact ⟨_, rfl, .fixed rfl rfl⟩
    · rename_i hmiddle
      exact absurd ⟨hb, hmiddle⟩ hde
    · cases h
      exact ⟨_, rfl, .fixed rfl rfl⟩
    · cases h
      exact ⟨_, rfl, .fixed rfl rfl⟩
  · cases h
    exact ⟨_, rfl, .word (fun _ => rfl) fun _ => rfl⟩
  · split at h
    · rename_i hodd
      rw [if_pos hodd]
      split at h
      · cases h
        exact ⟨_, rfl, .word (fun _ => rfl) fun _ => rfl⟩
      · cases h
      · cases h
      · cases h
    · rename_i hodd
      rw [if_neg hodd]
      cases h
      exact ⟨_, rfl, .fixed (by rw [Instr.exchange, hpair]) rfl⟩
  · cases h
    exact ⟨_, rfl, .byte (fun _ => rfl) fun _ => rfl⟩
  · cases h
    exact ⟨_, rfl, .fixed rfl rfl⟩

theorem exists_decode_eq_instr {op : Byte} (h : op ∉ [0xCB, 0xDD, 0xED, 0xFD]) :
    ∃ form, decode .hl op = .instr form := by
  have hnone : (decode .hl op).index? = none ∧ (decode .hl op).pageCode? = none := by
    revert op
    decide +kernel
  cases hop : decode .hl op with
  | instr form => exact ⟨form, rfl⟩
  | index _ =>
      rw [hop] at hnone
      cases hnone.1
  | bits | extended =>
      rw [hop] at hnone
      cases hnone.2

theorem swap_of_fields (op : Byte) (h : top op = 3) :
    (bottom op = 3 ∧ middle op = 5 → op = 0xEB) ∧
      (bottom op = 1 ∧ oddRow op ∧ pairCode op = 1 → op = 0xD9) := by
  revert op
  decide +kernel

theorem exchanges_decode {op : Byte} {form : Form} (h : decode .hl op = .instr form)
    (hcell : op ∉ cellCodes) (hswap : ¬(op = 0xEB ∨ op = 0xD9)) :
    ∃ behind, decode p op = .instr behind ∧ Exchanges p form behind := by
  rw [mem_cellCodes] at hcell
  simp only [decode] at h ⊢
  split at h
  · rename_i ht
    cases h
    refine ⟨_, rfl, exchanges_lowQuarter fun hmiddle hbottom => ?_⟩
    exact hcell (.inl ⟨ht, hmiddle, hbottom⟩)
  · rename_i ht
    cases h
    exact ⟨_, rfl, exchanges_loads (not_not.mp fun hone => hcell (.inr (.inl ⟨ht, hone⟩)))⟩
  · rename_i ht
    cases h
    exact ⟨_, rfl, exchanges_onPlace (fun hbottom => hcell (.inr (.inr ⟨ht, hbottom⟩)))
      (fun _ => rfl) fun _ => rfl⟩
  · rename_i hzero hone htwo
    obtain ⟨hde, hexx⟩ := swap_of_fields op (top_eq_three hzero hone htwo)
    exact exchanges_highQuarter h (fun hfields => hswap (.inl (hde hfields)))
      fun hfields => hswap (.inr (hexx hfields))

end Opcode

namespace Instr

variable (p : Pointer) (i : Instr)

theorem setsFlags_exchange : (i.exchange p).setsFlags = i.setsFlags := by
  unfold exchange
  split <;> rfl

theorem readsSystem_exchange : (i.exchange p).readsSystem = i.readsSystem := by
  unfold exchange
  split <;> rfl

theorem isEi_exchange : (i.exchange p == .ei) = (i == .ei) := by
  unfold exchange
  split <;> rfl

end Instr

theorem Operation.cost_exchange (p : Pointer) (i : Instr) (taken : Bool) :
    cost ⟨true, i.exchange p⟩ taken = cost ⟨false, i⟩ taken + 4 := by
  simp only [cost, Instr.cost_exchange, Instr.extra_exchange, Timing.indexPrefix, if_true,
    Bool.false_eq_true, if_false]
  omega

theorem Cpu.retire_mirror (p : Pointer) (addr : Word) (i : Instr) (cpu : Cpu δ) :
    (cpu.modifyRegs (Registers.mirror p addr)).retire (i.exchange p) =
      (cpu.retire i).modifyRegs (Registers.mirror p addr) := by
  simp only [retire, Instr.setsFlags_exchange, Instr.readsSystem_exchange, Instr.isEi_exchange,
    modifyRegs, Registers.mirror_f]

/-- The registers with which the code behind a prefix is stepped by itself. -/
def Registers.behindPrefix (p : Pointer) (r : Registers) : Registers :=
  { r.exchange p with pc := r.pc + 1 }

theorem Registers.mirror_fetched (p : Pointer) (n : Nat) (r : Registers) :
    (mirror p r.pc ∘ fetched n ∘ behindPrefix p) r = (skipped n ∘ passed ∘ passed ∘ start) r := by
  cases p <;> rfl

namespace Exec

variable [Bus σ] [Peripheral δ]

variable {memory : σ → Word → Byte} (h : Bus.Plain memory) {m : Machine σ δ} {p q : Pointer}
include h

/-- A prefixed instruction that names all it uses of HL mirrors the one behind
the prefix. -/
theorem step_mirror {form : Form} (hindexes : Opcode.Indexes (memory m.bus m.cpu.regs.pc) p)
    (hplain : Opcode.decode .hl (memory m.bus (m.cpu.regs.pc + 1)) = .instr form)
    (hbehind : Opcode.decode p (memory m.bus (m.cpu.regs.pc + 1)) =
      .instr (form.map (Instr.exchange q)))
    (hexplicit : ∀ first second, (form.fill first second).isExplicit q) :
    let n := step (m.onRegs (Registers.behindPrefix q))
    (step m).1.2 = n.1.2 + 4 ∧ (step m).2 = n.2.onRegs (Registers.mirror q m.cpu.regs.pc) := by
  obtain ⟨i, hi⟩ : ∃ i, form.fill (memory m.bus (m.cpu.regs.pc + 2))
      (memory m.bus (m.cpu.regs.pc + 3)) = i := ⟨_, rfl⟩
  obtain ⟨n, hn⟩ : ∃ n, n = m.onRegs (Registers.behindPrefix q) := ⟨_, rfl⟩
  have hspells : Spells memory memory n.bus n.cpu.regs.pc i form.length := by
    rw [← Word.add_two_one, ← Word.add_one_one] at hi
    subst hn
    exact ⟨form, hplain, rfl, hi⟩
  -- The prefixed instruction starts from the mirror of where the other one does.
  have hstart : (n.onRegs (Registers.fetched form.length)).onRegs
        (Registers.mirror q m.cpu.regs.pc) =
      (m.onRegs Registers.start).onRegs
        (Registers.skipped form.length ∘ Registers.passed ∘ Registers.passed) := by
    rw [hn]
    simp only [Machine.onRegs_onRegs, Function.comp_assoc]
    exact Machine.onRegs_congr (Registers.mirror_fetched q form.length m.cpu.regs)
  have hfetch : fetch (m.onRegs Registers.start) =
      (⟨true, i.exchange q⟩, (n.onRegs (Registers.fetched form.length)).onRegs
        (Registers.mirror q m.cpu.regs.pc)) := by
    rw [fetch_indexed (m := m.onRegs Registers.start) h hindexes hbehind, Form.fill_map,
      Form.length_map, hstart, ← hi]
    rfl
  have hi' : i.isExplicit q := hi ▸ hexplicit _ _
  have hmirrors : Mirrors q m.cpu.regs.pc (execute (i.exchange q) : Exec σ δ Bool) (execute i) :=
    .execute hi'
  have hexecute := hmirrors (n.onRegs (Registers.fetched form.length))
  intro after
  have hafter : after = _ := (congrArg step hn.symm).trans (step_static h hspells)
  rw [hafter, step_apply]
  simp only [hfetch, hexecute, Operation.cost_exchange, true_and]
  exact congrArg (Machine.mk · _) (Cpu.retire_mirror q _ i _)

/-- An index prefix exchanges HL with its index register around an instruction
of the main page that is not on the cell of HL, costs four T-states and one
refresh (`Registers.refresh_r_toNat`), and is where the instruction starts. The
exchanges of HL with DE and of the register sets keep HL. -/
theorem stepAndSkip_exchange {op : Byte} (hliteral : m.cpu.config.loopAcceleration = false)
    (hindexes : Opcode.Indexes (memory m.bus m.cpu.regs.pc) p)
    (hop : memory m.bus (m.cpu.regs.pc + 1) = op) (hpage : op ∉ [0xCB, 0xDD, 0xED, 0xFD])
    (hcell : op ∉ Opcode.cellCodes) (remaining : Nat) :
    let exchange := if op = 0xEB ∨ op = 0xD9 then id else Registers.exchange p
    let plain := stepAndSkip remaining (m.onRegs fun r => { exchange r with pc := r.pc + 1 })
    stepAndSkip remaining m =
      (plain.1 + 4, plain.2.onRegs fun r =>
        { Registers.refresh 1 (exchange r) with prepc := m.cpu.regs.pc }) := by
  intro exchange plain
  obtain ⟨form, hform⟩ := Opcode.exists_decode_eq_instr hpage
  obtain ⟨q, hexchange, hbehind, hexplicit⟩ : ∃ q, exchange = Registers.exchange q ∧
      Opcode.decode p op = .instr (form.map (Instr.exchange q)) ∧
      ∀ first second, (form.fill first second).isExplicit q := by
    by_cases hswap : op = 0xEB ∨ op = 0xD9
    · refine ⟨.hl, if_pos hswap, ?_⟩
      rcases hswap with rfl | rfl <;> cases hform <;> exact ⟨rfl, fun _ _ => rfl⟩
    · obtain ⟨behind, hdecode, hbehind⟩ := Opcode.exchanges_decode (p := p) hform hcell hswap
      exact ⟨p, if_neg hswap, hbehind.behind_eq ▸ hdecode, hbehind.explicit⟩
  subst hop
  obtain ⟨hcost, hstate⟩ := step_mirror h hindexes hform hbehind hexplicit
  have hplain : plain = ((step (m.onRegs (Registers.behindPrefix q))).1.2,
      (step (m.onRegs (Registers.behindPrefix q))).2) := by
    simp only [plain, hexchange]
    exact stepAndSkip_of_literal (m := m.onRegs (Registers.behindPrefix q)) hliteral remaining
  rw [stepAndSkip_of_literal hliteral, hplain, hcost, hstate, hexchange]
  rfl

omit h in
/-- An exchange of IY with the top of the stack, which is right behind it. -/
theorem stepAndSkip_exchange_stack :
    let m : Machine Bus.Flat StateLatch :=
      ⟨{ regs := { sp := 2, h := 0x12, l := 0x34, iyh := 0x56, iyl := 0x78 }
         config := { loopAcceleration := false } },
        Bus.Flat.load 0 [0xFD, 0xE3, 0xCD, 0xAB] {}⟩
    let plain := stepAndSkip 1 (m.onRegs fun r => { r.exchange .iy with pc := r.pc + 1 })
    m.cpu.config.loopAcceleration = false ∧
    Opcode.Indexes (m.bus.peek m.cpu.regs.pc) .iy ∧ m.bus.peek (m.cpu.regs.pc + 1) = 0xE3 ∧
    stepAndSkip 1 m = (plain.1 + 4, plain.2.onRegs fun r =>
      { Registers.refresh 1 (r.exchange .iy) with prepc := m.cpu.regs.pc }) ∧
    (stepAndSkip 1 m).2.cpu.regs.iy = 0xABCD ∧ (stepAndSkip 1 m).2.cpu.regs.hl = 0x1234 := by
  intro m plain
  have hcode : m.bus.peek (m.cpu.regs.pc + 1) = 0xE3 := by decide +kernel
  have hindex : Opcode.Indexes (m.bus.peek m.cpu.regs.pc) .iy := by
    have hindexes : m.bus.peek m.cpu.regs.pc = 0xFD := by decide +kernel
    rw [hindexes]
    exact .iy
  have hstep := stepAndSkip_exchange (m := m) Bus.Flat.plain rfl hindex hcode (by decide)
    (by decide) 1
  exact ⟨rfl, hindex, hcode, hstep, by decide +kernel, by decide +kernel⟩

end Exec
end Z80
