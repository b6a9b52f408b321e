import Z80.Daisy.StateLatch
import Z80.Proofs.Cells
import Z80.Proofs.Latches

/-!
Operands at a displacement from an index register. An instruction on such a
cell does to the byte, to the accumulator and to the flags what the same
instruction does on the cell of HL. It differs in the registers beside the
cell: those are never halves of the index register, a byte that the bit page
has changed goes to a register as well, and the address stays in the latch.
-/
namespace Z80

open Bus (Flat)

variable {δ : Type}

/-- What stands behind a prefix and the code after it. -/
theorem Holds.behind {memory : Word → Byte} {pc : Word} {code first second : Byte}
    {rest : List Byte} (h : Holds memory (pc + 1) (code :: first :: second :: rest)) :
    memory (pc + 2) = first ∧ memory (pc + 3) = second := by
  rw [← Word.add_two_one, ← Word.add_one_one]
  exact ⟨h.2.1, h.2.2.1⟩

namespace Registers

/-- Only the counters of the instruction stream have moved. -/
def Streamed (r s : Registers) : Prop :=
  ∃ pc k prepc, s = { r with pc, r := k, prepc }

variable {r s : Registers}

theorem Streamed.refl (r : Registers) : Streamed r r :=
  ⟨_, _, _, rfl⟩

theorem Streamed.of_start (h : Streamed r.start s) : Streamed r s := by
  obtain ⟨pc, k, prepc, rfl⟩ := h
  exact ⟨_, _, _, rfl⟩

theorem Streamed.passed (h : Streamed r s) : Streamed r s.passed := by
  obtain ⟨pc, k, prepc, rfl⟩ := h
  exact ⟨_, _, _, rfl⟩

theorem Streamed.skipped (h : Streamed r s) (n : Nat) : Streamed r (s.skipped n) := by
  obtain ⟨pc, k, prepc, rfl⟩ := h
  exact ⟨_, _, _, rfl⟩

theorem Streamed.reg8 (h : Streamed r s) (x : Reg8) : s.reg8 x = r.reg8 x := by
  obtain ⟨pc, k, prepc, rfl⟩ := h
  cases x <;> rfl

theorem Streamed.f (h : Streamed r s) : s.f = r.f := by
  obtain ⟨pc, k, prepc, rfl⟩ := h
  rfl

theorem Streamed.wz (h : Streamed r s) : s.wz = r.wz := by
  obtain ⟨pc, k, prepc, rfl⟩ := h
  rfl

theorem Streamed.cellAddress (h : Streamed r s) (c : Cell) : s.cellAddress c = r.cellAddress c := by
  obtain ⟨pc, k, prepc, rfl⟩ := h
  cases c <;> rfl

end Registers

/-! The instructions on a displaced cell as they stand in memory. -/

namespace Opcode

/-- The code of the bit page with the same operation on the cell of HL. -/
def onCell (code : Byte) : Byte :=
  code &&& 0xF8 ||| 0x06

def bitsRole (code : Byte) : Role :=
  if top code = 1 then .test
  else match Reg8.ofCode (bottom code) with
    | some dst => .receive dst
    | none => .change

/-- The bytes behind an index prefix of an instruction at a displacement, the
bytes of the same instruction on the cell of HL, and the part of the cell. -/
inductive Displaces (d : Byte) : List Byte → List Byte → Role → Prop
  | adjust {code : Byte} (h : code ∈ adjustCodes) : Displaces d [code, d] [code] .change
  | storeImm (n : Byte) : Displaces d [0x36, d, n] [0x36, n] .change
  | load {code : Byte} {dst : Reg8} (h : (code, dst) ∈ loadCodes) :
      Displaces d [code, d] [code] (.receive dst)
  | store {code : Byte} {src : Reg8} (h : (code, src) ∈ storeCodes) :
      Displaces d [code, d] [code] (.store src)
  | bits (code : Byte) : Displaces d [0xCB, d, code] [0xCB, onCell code] (bitsRole code)

section

variable {code : Byte} {p : Pointer} (h : Indexes code p) (r : Registers) (d : Byte)
include h

theorem Indexes.cellAddress : r.cellAddress (p.cell d) = r.pointer p + Word.displacement d := by
  cases h <;> rfl

theorem Indexes.wz_latchCell : (r.latchCell (p.cell d)).wz = r.cellAddress (p.cell d) := by
  cases h <;> rfl

end

theorem Indexes.fill_ofCellImm {code : Byte} {p : Pointer} (h : Indexes code p)
    (make : Cell → Byte → Instr) (first second : Byte) :
    (Form.ofCellImm p make).fill first second = make (p.cell first) second := by
  cases h <;>
    simp only [Form.ofCellImm, Form.fill, Word.low_ofBytes, Word.high_ofBytes, Pointer.cell]

/-- A code of the main page on the cell of a pointer. -/
def IsCellCode (code : Byte) (op : CellOp) : Prop :=
  ∀ p, decode p code = .instr (.ofCell p op.instr)

theorem exists_adjust {code : Byte} (h : code ∈ adjustCodes) :
    ∃ op, IsCellCode code op ∧ op.bare = op ∧ op.role = .change := by
  simp only [adjustCodes, List.mem_cons, List.not_mem_nil, or_false] at h
  rcases h with rfl | rfl | rfl | rfl | rfl | rfl | rfl | rfl | rfl | rfl
  · exact ⟨.inc, fun _ => rfl, rfl, rfl⟩
  · exact ⟨.dec, fun _ => rfl, rfl, rfl⟩
  all_goals exact ⟨.alu _, fun _ => rfl, rfl, rfl⟩

theorem isCellCode_load {code : Byte} {dst : Reg8} (h : (code, dst) ∈ loadCodes) :
    IsCellCode code (.load dst) := by
  simp only [loadCodes, List.mem_cons, List.not_mem_nil, or_false, Prod.mk.injEq] at h
  rcases h with ⟨rfl, rfl⟩ | ⟨rfl, rfl⟩ | ⟨rfl, rfl⟩ | ⟨rfl, rfl⟩ | ⟨rfl, rfl⟩ | ⟨rfl, rfl⟩ |
    ⟨rfl, rfl⟩ <;> exact fun _ => rfl

theorem isCellCode_store {code : Byte} {src : Reg8} (h : (code, src) ∈ storeCodes) :
    IsCellCode code (.store src) := by
  simp only [storeCodes, List.mem_cons, List.not_mem_nil, or_false, Prod.mk.injEq] at h
  rcases h with ⟨rfl, rfl⟩ | ⟨rfl, rfl⟩ | ⟨rfl, rfl⟩ | ⟨rfl, rfl⟩ | ⟨rfl, rfl⟩ | ⟨rfl, rfl⟩ |
    ⟨rfl, rfl⟩ <;> exact fun _ => rfl

theorem decode_onCell (code : Byte) :
    BitOp.decode (onCell code) = BitOp.decode code ∧
      Reg8.ofCode (bottom (onCell code)) = none := by
  revert code
  decide +kernel

theorem ofBits_onCell (code : Byte) :
    Instr.ofBits (onCell code) = (CellOp.bits (BitOp.decode code) none).instr .hl := by
  obtain ⟨hop, hcell⟩ := decode_onCell code
  simp only [Instr.ofBits, hcell, hop]
  rfl

theorem role_bits (code : Byte) :
    (CellOp.bits (BitOp.decode code) (Reg8.ofCode (bottom code))).role = bitsRole code := by
  simp only [bitsRole, BitOp.decode]
  match top code with
  | 0 | 2 | _ + 3 => cases Reg8.ofCode (bottom code) <;> rfl
  | 1 => rfl

end Opcode

namespace Exec

open Registers (skipped passed)

variable {σ : Type} [Bus σ]

/-- The operation is fetched, and of the registers nothing else moves than the
counters. -/
def Fetches (op : Operation) (m : Machine σ δ) : Prop :=
  ∃ g, m.cpu.regs.Streamed (g m.cpu.regs) ∧ fetch m = (op, m.onRegs g)

/-- Behind an index prefix the one bytes spell an operation on a displaced
cell, and the others spell it on the cell of HL without a copy. -/
structure SpellsCell (memory : σ → Word → Byte) (δ : Type) (d : Byte) (bytes plain : List Byte)
    (op : CellOp) : Prop where
  indexed (m : Machine σ δ) (p : Pointer)
    (hindexes : Opcode.Indexes (memory m.bus m.cpu.regs.pc) p)
    (hbytes : Holds (memory m.bus) (m.cpu.regs.pc + 1) bytes) :
    Fetches ⟨true, op.instr (p.cell d)⟩ m
  plain (m : Machine σ δ) (hbytes : Holds (memory m.bus) m.cpu.regs.pc plain) :
    Fetches ⟨false, op.bare.instr .hl⟩ m

section

variable {memory : σ → Word → Byte} (h : Bus.Plain memory) {m : Machine σ δ} {p : Pointer}
include h

theorem fetches_indexed (hindexes : Opcode.Indexes (memory m.bus m.cpu.regs.pc) p) {form : Form}
    {code first : Byte} {rest : List Byte} (hcode : Opcode.decode p code = .instr form)
    (hbytes : Holds (memory m.bus) (m.cpu.regs.pc + 1) (code :: first :: rest)) {i : Instr}
    (hi : form.fill first (memory m.bus (m.cpu.regs.pc + 3)) = i) :
    Fetches ⟨true, i⟩ m := by
  obtain ⟨hop, hfirst, -⟩ := hbytes
  rw [Word.add_one_one] at hfirst
  rw [← hop] at hcode
  have hfetch := fetch_indexed h hindexes hcode
  rw [hfirst, hi] at hfetch
  exact ⟨skipped form.length ∘ passed ∘ passed, (Registers.Streamed.refl _).passed.passed.skipped _,
    hfetch⟩

theorem fetches_plain {form : Form} {code : Byte} {rest : List Byte}
    (hcode : Opcode.decode .hl code = .instr form)
    (hbytes : Holds (memory m.bus) m.cpu.regs.pc (code :: rest)) {i : Instr}
    (hi : form.fill (memory m.bus (m.cpu.regs.pc + 1)) (memory m.bus (m.cpu.regs.pc + 1 + 1)) = i) :
    Fetches ⟨false, i⟩ m := by
  obtain ⟨hop, -⟩ := hbytes
  rw [← hop] at hcode
  exact ⟨skipped form.length ∘ passed, (Registers.Streamed.refl _).passed.skipped _,
    fetch_static h ⟨form, hcode, rfl, hi⟩⟩

theorem spells_cellCode {code d : Byte} {op : CellOp} (hcode : Opcode.IsCellCode code op)
    (hbare : op.bare = op) : SpellsCell memory δ d [code, d] [code] op where
  indexed m p hindexes hbytes := fetches_indexed h hindexes (hcode p) hbytes (by cases p <;> rfl)
  plain m hbytes := by
    rw [hbare]
    exact fetches_plain h (hcode .hl) hbytes rfl

theorem spells_storeImm (d n : Byte) :
    SpellsCell memory δ d [0x36, d, n] [0x36, n] (.storeImm n) where
  indexed m p hindexes hbytes := by
    refine fetches_indexed h hindexes rfl hbytes ?_
    rw [hbytes.behind.2]
    exact hindexes.fill_ofCellImm _ d n
  plain m hbytes := fetches_plain h rfl hbytes (by rw [hbytes.2.1]; rfl)

theorem spells_bits (d code : Byte) :
    SpellsCell memory δ d [0xCB, d, code] [0xCB, Opcode.onCell code]
      (.bits (BitOp.decode code) (Reg8.ofCode (Opcode.bottom code))) where
  indexed m p hindexes hbytes := by
    have hfetch := fetch_indexedBits h hindexes hbytes.1
    rw [hbytes.behind.1, hbytes.behind.2] at hfetch
    exact ⟨skipped 2 ∘ passed ∘ passed, (Registers.Streamed.refl _).passed.passed.skipped 2,
      hfetch⟩
  plain m hbytes := by
    have hfetch := fetch_bits h hbytes.1
    rw [hbytes.2.1, Opcode.ofBits_onCell] at hfetch
    exact ⟨passed ∘ passed, (Registers.Streamed.refl _).passed.passed, hfetch⟩

/-- What stands behind the prefix is an operation on the displaced cell, and
what it is compared with is this operation on the cell of HL. -/
theorem exists_cellOp {d : Byte} {bytes plain : List Byte} {role : Role}
    (hform : Opcode.Displaces d bytes plain role) :
    ∃ op : CellOp, op.role = role ∧ SpellsCell memory δ d bytes plain op := by
  cases hform with
  | adjust hcode =>
      obtain ⟨op, hop, hbare, hrole⟩ := Opcode.exists_adjust hcode
      exact ⟨op, hrole, spells_cellCode h hop hbare⟩
  | storeImm n => exact ⟨.storeImm n, rfl, spells_storeImm h d n⟩
  | load hcode => exact ⟨.load _, rfl, spells_cellCode h (Opcode.isCellCode_load hcode) rfl⟩
  | store hcode => exact ⟨.store _, rfl, spells_cellCode h (Opcode.isCellCode_store hcode) rfl⟩
  | bits code => exact ⟨_, Opcode.role_bits code, spells_bits h d code⟩

end

/-! A step makes the fetches and the accesses of its instruction. -/

section

variable [Peripheral δ] {P : Bus.Event → Prop} {m : Machine σ δ} {f : Operation × Machine σ δ}

theorem Notes.step (hf : Exec.fetch (m.onRegs Registers.start) = f)
    (h : Notes P (execute f.1.instr : Exec (Bus.Logged σ) δ Bool) (execute f.1.instr) f.2) :
    Notes (fun e => e.isFetch ∨ P e) (step : Exec (Bus.Logged σ) δ (Operation × Nat)) step m := by
  subst hf
  exact .bind (.modifyCpu _) <| .bind (Notes.fetch.mono fun _ => .inl) <|
    .bind (h.mono fun _ => .inr) <| .bind (.modifyCpu _) (.pure _)

theorem Notes.stepAndSkip (hf : Exec.fetch (m.onRegs Registers.start) = f)
    (hcloses : f.1.instr.closesLoop = false)
    (h : Notes P (execute f.1.instr : Exec (Bus.Logged σ) δ Bool) (execute f.1.instr) f.2)
    (remaining : Nat) :
    Notes (fun e => e.isFetch ∨ P e) (stepAndSkip remaining : Exec (Bus.Logged σ) δ Nat)
      (stepAndSkip remaining) m := by
  have hop : (Exec.step m).1.1 = f.1 := congrArg Prod.fst hf
  refine .bind (.step hf h) (.bind (.silent fun events => ?_) (.pure _))
  rw [hop, accelerate_of_not_closesLoop hcloses, accelerate_of_not_closesLoop hcloses]

end

section

variable [Peripheral δ] {m : Machine Flat δ}

theorem stepAndSkip_cell {indexed : Bool} {op : CellOp} {c : Cell}
    (hfetch : Fetches ⟨indexed, op.instr c⟩ (m.onRegs Registers.start)) (remaining : Nat) :
    ∃ s, m.cpu.regs.Streamed s ∧
      let addr := m.cpu.regs.cellAddress c
      let res := op.apply (m.bus.peek addr) (s.latchCell c)
      (stepAndSkip remaining m).2.cpu.regs = res.2 ∧
      (stepAndSkip remaining m).2.bus = m.bus.pokeSome addr res.1 ∧
      Notes (fun e => e.isFetch ∨ e.isAt addr)
        (stepAndSkip remaining) (stepAndSkip remaining) m := by
  obtain ⟨g, hg, hf⟩ := hfetch
  have hs : m.cpu.regs.Streamed (g m.cpu.regs.start) := hg.of_start
  have haddr := hs.cellAddress c
  have hop : (step m).1.1 = ⟨indexed, op.instr c⟩ := congrArg Prod.fst hf
  have hcloses : (step m).1.1.instr.closesLoop = false := hop ▸ op.closesLoop_instr c
  have hstep : (stepAndSkip remaining m).2 = (step m).2 := by
    rw [stepAndSkip_of_not_closesLoop hcloses]
  have hnotes := Notes.stepAndSkip hf (op.closesLoop_instr c) (Notes.cell op c) remaining
  refine ⟨_, hs, ?_, ?_, ?_⟩
  · rw [hstep, step_apply]
    simp only [hf, execute_cell]
    exact congrArg (fun a => (op.apply (m.bus.peek a) ((g m.cpu.regs.start).latchCell c)).2) haddr
  · rw [hstep, step_apply]
    simp only [hf, execute_cell]
    exact congrArg (fun a =>
      m.bus.pokeSome a (op.apply (m.bus.peek a) ((g m.cpu.regs.start).latchCell c)).1) haddr
  · exact hnotes.mono fun e he => he.imp_right fun hat => haddr ▸ hat

/-- What an instruction on a displaced cell leaves, beside what the instruction
on the cell of HL has left. -/
structure AgreesAt (addr : Word) (role : Role) (before after other : Machine Flat δ) : Prop where
  /-- The cell has the same byte, except that a store takes the register as it
  is. -/
  byte : after.bus.peek addr =
    match role with
    | .store src => before.cpu.regs.reg8 src
    | _ => other.bus.peek addr
  elsewhere (a : Word) (h : a ≠ addr) : after.bus.peek a = before.bus.peek a
  flags : after.cpu.regs.f = other.cpu.regs.f
  /-- One register may receive the byte. Beside it only the accumulator
  changes. -/
  registers (x : Reg8) : after.cpu.regs.reg8 x =
    if role.target = some x then after.bus.peek addr
    else if x = .a then other.cpu.regs.a
    else before.cpu.regs.reg8 x
  latched : after.cpu.regs.wz = addr

/-- An instruction at a displacement from an index register reads and writes at
that address alone, and agrees with the instruction on the cell of HL, run with
HL at that address. -/
theorem stepAndSkip_displaced {p : Pointer} {d : Byte} {bytes plain : List Byte} {role : Role}
    (hform : Opcode.Displaces d bytes plain role)
    (hindexes : Opcode.Indexes (m.bus.peek m.cpu.regs.pc) p)
    (hbytes : Holds m.bus.peek (m.cpu.regs.pc + 1) bytes) {addr : Word}
    (haddr : addr = m.cpu.regs.pointer p + Word.displacement d) {bus : Flat} {pc wz : Word}
    (hplain : Holds bus.peek pc plain) (hsame : bus.peek addr = m.bus.peek addr)
    (hwz : role = .test → wz = addr) (remaining : Nat) :
    let n : Machine Flat δ := ⟨m.cpu.modifyRegs fun r => { r.setHL addr with pc, wz }, bus⟩
    Notes (fun e => e.isFetch ∨ e.isAt addr) (stepAndSkip remaining) (stepAndSkip remaining) m ∧
    AgreesAt addr role m (stepAndSkip remaining m).2 (stepAndSkip remaining n).2 := by
  intro n
  obtain ⟨op, rfl, hspells⟩ := exists_cellOp Flat.plain hform
  obtain ⟨s, hs, hregs, hbus, hnotes⟩ :=
    stepAndSkip_cell (hspells.indexed (m.onRegs Registers.start) p hindexes hbytes) remaining
  obtain ⟨t, ht, hregs', hbus', -⟩ :=
    stepAndSkip_cell (hspells.plain (n.onRegs Registers.start) hplain) remaining
  have hcell : m.cpu.regs.cellAddress (p.cell d) = addr := by
    rw [haddr, hindexes.cellAddress]
  have hcell' : n.cpu.regs.cellAddress .hl = addr := Registers.hl_setHL addr m.cpu.regs
  rw [hcell] at hregs hbus hnotes
  rw [hcell', hsame] at hregs' hbus'
  -- Both start with the same accumulator and flags, and for a test with the
  -- same latch.
  obtain ⟨r, hr⟩ : ∃ r, r = s.latchCell (p.cell d) := ⟨_, rfl⟩
  rw [← hr] at hregs hbus
  have hreg8 (x : Reg8) : r.reg8 x = m.cpu.regs.reg8 x := by
    rw [hr, Registers.reg8_latchCell, hs.reg8]
  have hlatch : r.wz = addr := by
    rw [hr, hindexes.wz_latchCell, hs.cellAddress, hcell]
  have ha : t.a = r.a := (ht.reg8 .a).trans (hreg8 .a).symm
  have hf : t.f = r.f := by
    rw [ht.f, hr, Registers.f_latchCell, hs.f]
    rfl
  have hwz' : op.role = .test → t.wz = r.wz := by
    intro htest
    rw [ht.wz, hlatch]
    exact hwz htest
  refine ⟨hnotes, ⟨?_, fun a hne => ?_, ?_, fun x => ?_, ?_⟩⟩
  · have hother : (stepAndSkip remaining n).2.bus.peek addr =
        (op.bare.apply (m.bus.peek addr) t).1.getD (m.bus.peek addr) := by
      rw [hbus', Bus.Flat.peek_pokeSome]
      exact congrArg _ hsame
    rw [hbus, Bus.Flat.peek_pokeSome, hother, op.stored_apply _ hf]
    cases op.role with
    | store src => exact hreg8 src
    | change | test | receive _ => rfl
  · rw [hbus, Bus.Flat.peek_pokeSome_of_ne hne]
  · rw [hregs, hregs']
    exact (op.f_bare _ ha hf hwz').symm
  · rw [hregs, hregs', hbus, Bus.Flat.peek_pokeSome, op.reg8_apply _ ha hf, hreg8]
    rfl
  · rw [hregs, CellOp.wz_apply, hlatch]

end

/-- A rotation of the byte two below IX, which goes to H as well. -/
theorem stepAndSkip_displaced_rotate :
    let bus := (Flat.load 0 [0xDD, 0xCB, 0xFE, 0x0C, 0xCB, 0x0E] {}).poke 0x10 0x81
    let m : Machine Flat StateLatch := ⟨{ regs := { h := 0x40, ixh := 0, ixl := 0x12 } }, bus⟩
    let n : Machine Flat StateLatch :=
      ⟨m.cpu.modifyRegs fun r => { r.setHL 0x10 with pc := 4, wz := 0 }, bus⟩
    Opcode.Displaces 0xFE [0xCB, 0xFE, 0x0C] [0xCB, 0x0E] (.receive .h) ∧
    Opcode.Indexes (m.bus.peek m.cpu.regs.pc) .ix ∧
    Holds m.bus.peek (m.cpu.regs.pc + 1) [0xCB, 0xFE, 0x0C] ∧ Holds bus.peek 4 [0xCB, 0x0E] ∧
    Notes (fun e => e.isFetch ∨ e.isAt 0x10) (stepAndSkip 1) (stepAndSkip 1) m ∧
    AgreesAt 0x10 (.receive .h) m (stepAndSkip 1 m).2 (stepAndSkip 1 n).2 ∧
    (stepAndSkip 1 m).2.cpu.regs.h = 0xC0 := by
  intro bus m n
  have hform : Opcode.Displaces 0xFE [0xCB, 0xFE, 0x0C] [0xCB, 0x0E] (.receive .h) := .bits 0x0C
  have hindex : Opcode.Indexes (m.bus.peek m.cpu.regs.pc) .ix := by
    have hindexes : m.bus.peek m.cpu.regs.pc = 0xDD := by decide +kernel
    rw [hindexes]
    exact .ix
  have hbytes : Holds m.bus.peek (m.cpu.regs.pc + 1) [0xCB, 0xFE, 0x0C] := by decide +kernel
  have hplain : Holds bus.peek 4 [0xCB, 0x0E] := by decide +kernel
  have haddr : (0x10 : Word) = m.cpu.regs.pointer .ix + Word.displacement 0xFE := by decide +kernel
  have hwz : Role.receive .h = .test → (0 : Word) = 0x10 := by decide
  obtain ⟨hnotes, hagrees⟩ :=
    stepAndSkip_displaced hform hindex hbytes haddr hplain rfl hwz 1
  exact ⟨hform, hindex, hbytes, hplain, hnotes, hagrees, by decide +kernel⟩

end Exec
end Z80
