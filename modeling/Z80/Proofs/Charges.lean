import Z80.Timing.Table
import Z80.Proofs.Refresh

/-!
What is charged for a step. The processor counts the cost of the instruction that it has
decoded, and the tables go by codes. Every cell agrees with the instruction of its code,
so a step costs the sum of the cells that its bytes lead to.
-/
namespace Z80

variable {σ δ : Type}

theorem Cell.extra_blank (n : Nat) (m : Cell) : m.blank.extra n = m.extra n := by
  cases m <;> rfl

namespace Instr

/-- Operand bytes have no part in the cost. -/
theorem cost_blank (i : Instr) : i.blank.cost = i.cost := by
  cases i with
  | load _ m | store m _ | storeImm m _ =>
      simp only [blank, cost, Cell.extra_blank]
  | loadA m | storeA m => cases m <;> rfl
  | alu _ p | inc p | dec p =>
      cases p with
      | reg _ => rfl
      | mem m => simp only [blank, Place.blank, cost, Cell.extra_blank]
  | bits op p copy =>
      cases p with
      | reg _ => rfl
      | mem m => cases op <;> simp only [blank, Place.blank, cost, Cell.extra_blank]
  | _ => rfl

theorem extra_blank (i : Instr) : i.blank.extra = i.extra := by
  cases i <;> rfl

theorem extra_ofBits (op : Byte) : (ofBits op).extra = 0 := by
  simp only [ofBits]
  split <;> rfl

end Instr

theorem Opcode.Indexes.ne_hl {code : Byte} {p : Pointer} (h : Indexes code p) : p ≠ .hl := by
  cases h <;> decide

namespace Timing

/-- What a cell should be by the instruction of its code. A code that leads to another
page costs nothing itself, or the index prefix where that page does not count it. -/
def entry (p : Pointer) (page : Page) (op : Byte) : Nat :=
  match page with
  | .main => ((Opcode.decode .hl op).sample?.map Instr.cost).getD 0
  | .bits => (Instr.ofBits op).cost
  | .extended => (Form.ofExtended op).sample.cost
  | .indexed =>
    match Opcode.decode p op with
    | .instr form => indexPrefix + form.sample.cost
    | .bits => 0
    | .extended | .index _ => indexPrefix
  | .indexedBits => indexPrefix + (Instr.ofIndexedBits p 0 op).cost
  | .extra =>
    ((Opcode.decode .hl op).sample?.map Instr.extra).getD 0 + (Form.ofExtended op).sample.extra +
      if op = 0xFF then irqLatency else 0

/-- A table is read by the code. -/
theorem cell_of_table {page : Page} {f : Byte → Nat}
    (h : table page = (List.range 256).map fun n => f (BitVec.ofNat 8 n)) (op : Byte) :
    cell page op = f op := by
  rw [cell, h, List.getD_eq_getElem?_getD, List.getElem?_map, List.getElem?_range op.isLt,
    Option.map_some, Option.getD_some, BitVec.ofNat_toNat, BitVec.setWidth_eq]

/-- The tables are those of the instructions, with either pointer behind a prefix. -/
theorem table_eq {p : Pointer} (hp : p ≠ .hl) (page : Page) :
    table page = (List.range 256).map fun n => entry p page (BitVec.ofNat 8 n) := by
  cases p with
  | hl => exact absurd rfl hp
  | ix | iy => cases page <;> decide +kernel

theorem cell_eq {p : Pointer} (hp : p ≠ .hl) (page : Page) (op : Byte) :
    cell page op = entry p page op :=
  cell_of_table (table_eq hp page) op

variable {p : Pointer} {op : Byte} {form : Form} (a b : Byte)

theorem extra_sample (p : Pointer) (op : Byte) :
    ∀ i ∈ (Opcode.decode p op).sample?, 0 < i.extra → i.extra = cell .extra op := by
  revert op
  cases p <;> decide +kernel

theorem cost_fill {p : Pointer} (h : Opcode.decode p op = .instr form) :
    (form.fill a b).cost = form.sample.cost := by
  rw [← Instr.cost_blank, Form.blank_decode a b h, Instr.cost_blank]

/-- The cells of the main page. -/
theorem cost_main (h : Opcode.decode .hl op = .instr form) :
    (form.fill a b).cost = cell .main op := by
  rw [cost_fill a b h, cell_eq Opcode.Indexes.ix.ne_hl, entry, h]
  rfl

/-- The cells of the main page behind an index prefix. -/
theorem cost_indexed (hp : p ≠ .hl) (h : Opcode.decode p op = .instr form) :
    indexPrefix + (form.fill a b).cost = cell .indexed op := by
  rw [cost_fill a b h, cell_eq hp, entry, h]

/-- The cells of the bit page. -/
theorem cost_bits (op : Byte) : (Instr.ofBits op).cost = cell .bits op :=
  (cell_eq Opcode.Indexes.ix.ne_hl .bits op).symm

/-- The cells of the bit page behind an index prefix. -/
theorem cost_indexedBits (hp : p ≠ .hl) (d op : Byte) :
    indexPrefix + (Instr.ofIndexedBits p d op).cost = cell .indexedBits op := by
  have hblank : (Instr.ofIndexedBits p d op).blank = (Instr.ofIndexedBits p 0 op).blank := by
    cases p <;> rfl
  rw [← Instr.cost_blank, hblank, Instr.cost_blank, cell_eq hp, entry]

/-- The cells of the extended page. -/
theorem cost_extended (op : Byte) :
    ((Form.ofExtended op).fill a b).cost = cell .extended op := by
  rw [← Instr.cost_blank, Form.blank_ofExtended, Instr.cost_blank,
    cell_eq Opcode.Indexes.ix.ne_hl, entry]

/-- What a code of the main page adds. -/
theorem extra_decode (h : Opcode.decode p op = .instr form)
    (hextra : 0 < (form.fill a b).extra) : (form.fill a b).extra = cell .extra op := by
  have hsample : (form.fill a b).extra = form.sample.extra := by
    rw [← Instr.extra_blank, Form.blank_decode a b h, Instr.extra_blank]
  rw [hsample] at hextra ⊢
  exact extra_sample p op _ (congrArg Opcode.sample? h) hextra

/-- What a code of the extended page adds. -/
theorem extra_extended (op : Byte) (hextra : 0 < ((Form.ofExtended op).fill a b).extra) :
    ((Form.ofExtended op).fill a b).extra = cell .extra op := by
  rw [← Instr.extra_blank, Form.blank_ofExtended, Instr.extra_blank] at hextra ⊢
  revert op
  decide +kernel

end Timing

theorem Opcode.ne_bits_of_decode {p : Pointer} {code : Byte} {form : Form}
    (h : decode p code = .instr form) : code ≠ 0xCB := by
  rintro rfl
  cases p <;> cases h

namespace Timing

@[simp] theorem total_nil : total [] = 0 := rfl

@[simp] theorem total_cons (page : Page) (op : Byte) (rest : List (Page × Byte)) :
    total ((page, op) :: rest) = cell page op + total rest := rfl

/-- A code that only leads to another page is charged there. -/
theorem cell_page {code : Byte} (h : code ∈ 0xCB :: 0xED :: Opcode.prefixes) :
    cell .main code = 0 := by
  simp only [Opcode.prefixes, List.mem_cons, List.not_mem_nil, or_false] at h
  rcases h with rfl | rfl | rfl | rfl <;> rfl

/-- Behind a prefix only the bit page counts the prefix with its own cells. -/
theorem cell_indexed_page {code : Byte} (h : code ∈ 0xED :: Opcode.prefixes) :
    cell .indexed code = indexPrefix := by
  simp only [Opcode.prefixes, List.mem_cons, List.not_mem_nil, or_false] at h
  rcases h with rfl | rfl | rfl <;> rfl

theorem total_bits (op : Byte) (operands : List Byte) :
    total (cells [0xCB, op] operands) = cell .bits op := by
  rw [cells, if_pos rfl, total_cons, total_cons, total_nil, cell_page (by decide), Nat.zero_add,
    Nat.add_zero]

theorem total_extended (op : Byte) (operands : List Byte) :
    total (cells [0xED, op] operands) = cell .extended op := by
  rw [cells, if_neg (by decide), if_pos rfl, total_cons, total_cons, total_nil,
    cell_page (by decide), Nat.zero_add, Nat.add_zero]

section

variable {first : Byte} (h : first ∈ Opcode.prefixes)
include h

theorem cell_of_mem_prefixes : cell .main first = 0 :=
  cell_page (List.mem_cons_of_mem _ (List.mem_cons_of_mem _ h))

theorem cells_behind (second : Byte) (operands : List Byte) :
    cells [first, second] operands = (.main, first) :: (.indexed, second) ::
      if second = 0xCB then operands.getLast?.toList.map ((.indexedBits, ·)) else [] := by
  have hbits : first ≠ 0xCB := by
    rintro rfl
    exact absurd h (by decide)
  rw [cells, if_neg hbits, if_neg (Opcode.ne_of_mem_prefixes h).symm]

theorem total_indexed {second : Byte} (hsecond : second ≠ 0xCB) (operands : List Byte) :
    total (cells [first, second] operands) = cell .indexed second := by
  rw [cells_behind h, if_neg hsecond, total_cons, total_cons, total_nil, cell_of_mem_prefixes h,
    Nat.zero_add, Nat.add_zero]

theorem total_indexedBits (d op : Byte) :
    total (cells [first, 0xCB] [d, op]) = cell .indexedBits op := by
  have hcode : cell .indexed 0xCB = 0 := rfl
  rw [cells_behind h, if_pos rfl, total_cons, total_cons, cell_of_mem_prefixes h, hcode,
    Nat.zero_add, Nat.zero_add]
  exact Nat.add_zero _

theorem total_indexedExtended (op : Byte) (operands : List Byte) :
    total (cells [first, 0xED, op] operands) = indexPrefix + cell .extended op := by
  rw [cells, total_cons, total_cons, total_cons, total_nil, cell_of_mem_prefixes h,
    cell_indexed_page (by decide), Nat.zero_add, Nat.add_zero]

end

end Timing

@[simp] theorem Operation.cost_indexed (i : Instr) :
    cost ⟨true, i⟩ false = Timing.indexPrefix + i.cost := rfl

namespace Reads

variable {n : Nat} {opcodes operands : List Byte} {op : Operation}

/-- The bytes of an operation lead to cells that sum up to its cost. The first opcode of
several has a cell of 0. -/
theorem cost_eq (h : Reads n opcodes operands op) :
    op.cost false = Timing.total (Timing.cells opcodes operands) := by
  cases h with
  | main hform => rw [Operation.cost_false, Timing.cost_main _ _ hform]; rfl
  | bits code => rw [Operation.cost_false, Timing.total_bits, Timing.cost_bits]
  | extended => rw [Operation.cost_false, Timing.total_extended, Timing.cost_extended]
  | superseded hfirst hsecond =>
      have hcode : Timing.cell .indexed _ = _ :=
        Timing.cell_indexed_page (List.mem_cons_of_mem _ hsecond)
      have hbits : 0xCB ∉ Opcode.prefixes := by decide
      rw [Timing.total_indexed hfirst (ne_of_mem_of_not_mem hsecond hbits), hcode]
      rfl
  | indexed hfirst hform =>
      rw [Operation.cost_indexed,
        Timing.total_indexed hfirst.mem_prefixes (Opcode.ne_bits_of_decode hform),
        Timing.cost_indexed _ _ hfirst.ne_hl hform]
  | indexedBits hfirst =>
      rw [Operation.cost_indexed, Timing.total_indexedBits hfirst.mem_prefixes,
        Timing.cost_indexedBits hfirst.ne_hl]
  | indexedExtended hfirst =>
      rw [Operation.cost_indexed, Timing.total_indexedExtended hfirst.mem_prefixes,
        Timing.cost_extended]

example : Timing.cells [0xFD, 0xCB] [0x05, 0xC6] =
    [(.main, 0xFD), (.indexed, 0xCB), (.indexedBits, 0xC6)] := by
  decide

/-- What an operation adds stands in the cell of its last opcode. -/
theorem extra_eq (h : Reads n opcodes operands op) (hextra : 0 < op.instr.extra) :
    op.instr.extra = Timing.total (Timing.extraCells opcodes) := by
  cases h with
  | main hform | indexed _ hform => exact Timing.extra_decode _ _ hform hextra
  | bits code => exact absurd hextra (by rw [Instr.extra_ofBits]; exact Nat.lt_irrefl 0)
  | superseded | indexedBits => exact absurd hextra (Nat.lt_irrefl 0)
  | extended | indexedExtended => exact Timing.extra_extended _ _ _ hextra

end Reads

/-- The code of the instruction that the entry of a maskable interrupt amounts to. -/
def Mode.entryCode (mode : Mode) (data : BitVec 32) : Byte :=
  match mode with
  | .direct =>
    match Mode0.ofData data with
    | .call _ => 0xCD
    | .jump _ => 0xC3
    | .restart _ => 0xFF
  | .fixed => 0xFF
  | .vectored => 0xCD

namespace Exec

variable [Bus σ] [Peripheral δ]

/-- Only an instruction that adds something takes its longer path. -/
theorem extra_pos_of_execute {i : Instr} {m : Machine σ δ} (h : (execute i m).1 = true) :
    0 < i.extra := by
  cases i with
  | jrIf _ _ | djnz _ | callIf _ _ | retIf _ => exact Nat.succ_pos _
  | block kind dir repeats =>
      cases repeats with
      | false => exact absurd ((block_of_not_repeats kind dir m).symm.trans h) Bool.false_ne_true
      | true => exact Nat.succ_pos _
  | _ => cases h

/-- Whether the instruction at the program counter takes its longer path: a branch, or
another round of a block instruction. -/
def takes (m : Machine σ δ) : Bool :=
  let f := fetch (m.onRegs Registers.start)
  (execute f.1.instr f.2).1

/-- The T-states of a step are those of the cells that the bytes it fetches lead to, and
on the longer path those of the last opcode's extra cell. -/
theorem step_charges (m : Machine σ δ) : ∃ opcodes operands, ∃ data : List Bus.Event,
    (∀ e ∈ data, e.isFetch = false) ∧
    (∀ events, step (m.traced events) = ((step m).1, (step m).2.traced
      (events ++ (Bus.Event.fetches m.cpu.regs.pc opcodes operands ++ data).toArray))) ∧
    (step m).1.2 = Timing.total (Timing.cells opcodes operands) +
      if takes m then Timing.total (Timing.extraCells opcodes) else 0 := by
  obtain ⟨n, opcodes, operands, data, hreads, hdata, htrace, -, -⟩ := exists_step_reads m
  have hcost : (step m).1.2 = (step m).1.1.cost false +
      if takes m then (step m).1.1.instr.extra else 0 := rfl
  refine ⟨opcodes, operands, data, hdata, htrace, ?_⟩
  rw [hcost, hreads.cost_eq]
  split
  · rename_i htakes
    rw [hreads.extra_eq (extra_pos_of_execute htakes)]
  · rfl

omit [Peripheral δ] in
/-- The entry of a maskable interrupt is charged by the instruction that it amounts to. -/
theorem enterMode_charges (mode : Mode) (data : BitVec 32) (m : Machine σ δ) :
    (enterMode mode data m).1 = Timing.cell .main (mode.entryCode data) := by
  cases mode with
  | direct =>
      simp only [enterMode, Mode.entryCode]
      cases Mode0.ofData data <;> rfl
  | fixed | vectored => rfl

theorem takeIrq_charges (m : Machine σ δ) :
    let data := (acknowledge (m.onCpu Cpu.acceptIrq)).1
    (takeIrq m).1 =
      Timing.total [(.main, (Mode.ofByte m.cpu.regs.im).entryCode data), (.extra, 0xFF)] := by
  intro data
  have haccept := congrArg Registers.im m.cpu.acceptIrq_regs
  have him : (acknowledge (m.onCpu Cpu.acceptIrq)).2.cpu.regs.im = m.cpu.regs.im := by
    rw [acknowledge_cpu]
    exact haccept
  have hmode := enterMode_charges (Mode.ofByte m.cpu.regs.im) data
    (acknowledge (m.onCpu Cpu.acceptIrq)).2
  have hlatency : Timing.irqLatency = Timing.cell .extra 0xFF := rfl
  rw [Timing.total_cons, Timing.total_cons, ← hmode, ← him, ← hlatency]
  rfl

end Exec
end Z80
