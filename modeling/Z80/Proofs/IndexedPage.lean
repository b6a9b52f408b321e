import Z80.Proofs.Charges
import Z80.Proofs.Exchange

/-!
The main page behind an index prefix, code by code. The decoder reads a code there as
anywhere else, with another pointer. By its codes the page is a list of arms for what
uses the pointer in one way or another, and every other code falls through to the main
page and pays for the prefix only.
-/
namespace Z80

/-- The register of a code that does not stand for the memory operand, with the halves
of the pointer in the places of H and L. -/
def Pointer.register (p : Pointer) (code : Nat) : Reg8 :=
  p.half ((Reg8.ofCode code).getD .a)

namespace Opcode

/-- Codes of the page, and what they begin. -/
structure Arm where
  codes : List Byte
  begins : Byte → Opcode

/-- The arms of the page behind an index prefix. A second prefix comes first: it is seen
before the page is left. -/
def arms (p : Pointer) : List Arm := [
  ⟨prefixes, fun op => .index (if op = 0xDD then .ix else .iy)⟩,
  ⟨[0x09, 0x19, 0x29, 0x39], fun op =>
    .instr (.fixed (.add16 p (if op = 0x29 then p.pair else .ofCode .hl (pairCode op))))⟩,
  ⟨[0x21], fun _ => .instr (.word (.ldImm16 p.pair))⟩,
  ⟨[0x22], fun _ => .instr (.word fun addr => .storePointer addr p)⟩,
  ⟨[0x23], fun _ => .instr (.fixed (.inc16 p.pair))⟩,
  ⟨[0x2B], fun _ => .instr (.fixed (.dec16 p.pair))⟩,
  ⟨[0x24, 0x2C], fun op => .instr (.fixed (.inc (.reg (p.register (middle op)))))⟩,
  ⟨[0x25, 0x2D], fun op => .instr (.fixed (.dec (.reg (p.register (middle op)))))⟩,
  ⟨[0x26, 0x2E], fun op => .instr (.byte (.ldImm (p.register (middle op))))⟩,
  ⟨[0x2A], fun _ => .instr (.word fun addr => .loadPointer p addr)⟩,
  ⟨[0x34], fun _ => .instr (.byte fun d => .inc (.mem (p.cell d)))⟩,
  ⟨[0x35], fun _ => .instr (.byte fun d => .dec (.mem (p.cell d)))⟩,
  ⟨[0x36], fun _ => .instr (.word fun w => .storeImm (p.cell w.low) w.high)⟩,
  ⟨[0x44, 0x45, 0x4C, 0x4D, 0x54, 0x55, 0x5C, 0x5D, 0x60, 0x61, 0x62, 0x63, 0x64, 0x65,
      0x67, 0x68, 0x69, 0x6A, 0x6B, 0x6C, 0x6D, 0x6F, 0x7C, 0x7D], fun op =>
    .instr (.fixed (.ld (p.register (middle op)) (p.register (bottom op))))⟩,
  -- Beside the memory operand H and L are themselves.
  ⟨[0x46, 0x4E, 0x56, 0x5E, 0x66, 0x6E, 0x7E], fun op =>
    .instr (.byte fun d => .load (Pointer.hl.register (middle op)) (p.cell d))⟩,
  ⟨[0x70, 0x71, 0x72, 0x73, 0x74, 0x75, 0x77], fun op =>
    .instr (.byte fun d => .store (p.cell d) (Pointer.hl.register (bottom op)))⟩,
  ⟨[0x84, 0x85, 0x8C, 0x8D, 0x94, 0x95, 0x9C, 0x9D, 0xA4, 0xA5, 0xAC, 0xAD, 0xB4, 0xB5,
      0xBC, 0xBD], fun op =>
    .instr (.fixed (.alu (.ofCode (middle op)) (.reg (p.register (bottom op)))))⟩,
  ⟨[0x86, 0x8E, 0x96, 0x9E, 0xA6, 0xAE, 0xB6, 0xBE], fun op =>
    .instr (.byte fun d => .alu (.ofCode (middle op)) (.mem (p.cell d)))⟩,
  ⟨[0xCB], fun _ => .bits⟩,
  ⟨[0xE1], fun _ => .instr (.fixed (.pop p.pair))⟩,
  ⟨[0xE3], fun _ => .instr (.fixed (.exSP p))⟩,
  ⟨[0xE5], fun _ => .instr (.fixed (.push p.pair))⟩,
  ⟨[0xE9], fun _ => .instr (.fixed (.jpPointer p))⟩,
  ⟨[0xF9], fun _ => .instr (.fixed (.ldSP p))⟩,
  ⟨[0xED], fun _ => .extended⟩]

/-- A code behind an index prefix, by its arm or else as on the main page. -/
def behind (p : Pointer) (op : Byte) : Opcode :=
  match (arms p).find? fun arm => arm.codes.contains op with
  | some arm => arm.begins op
  | none => decode .hl op

/-- The codes with an arm. -/
def armCodes : List Byte :=
  (arms .ix).flatMap Arm.codes

theorem begins_eq {p : Pointer} (hp : p ≠ .hl) :
    ∀ arm ∈ arms p, ∀ op ∈ arm.codes, arm.begins op = decode p op := by
  cases p with
  | hl => exact absurd rfl hp
  | ix | iy =>
      -- One equation for each code of each arm, and both sides of it compute.
      simp only [arms, prefixes, List.forall_mem_cons, List.not_mem_nil, false_implies,
        implies_true, and_true]
      repeat' apply And.intro
      all_goals rfl

section

variable (p : Pointer)

theorem half_of_code {code : Nat} (hcode : code ∉ [4, 5]) {r : Reg8}
    (h : Reg8.ofCode code = some r) : p.half r = Pointer.hl.half r := by
  match code with
  | 4 | 5 => exact absurd (by decide) hcode
  | 0 | 1 | 2 | 3 | 6 | _ + 7 => cases h <;> rfl

theorem pair_of_code {code : Nat} (hcode : code ≠ 2) :
    Reg16.ofCode p code = Reg16.ofCode .hl code ∧
      Reg16.ofStackCode p code = Reg16.ofStackCode .hl code := by
  match code with
  | 2 => exact absurd rfl hcode
  | 0 | 1 | _ + 3 => exact ⟨rfl, rfl⟩

theorem onPlace_of_code {code : Nat} (hcode : code ∉ [4, 5, 6]) (make : Place → Instr) :
    onPlace p code make = onPlace .hl code make := by
  match code with
  | 4 | 5 | 6 => exact absurd (by decide) hcode
  | 0 | 1 | 2 | 3 | _ + 7 => rfl

/-- By its fields, a code names the pair of the pointer, one of its halves, or the memory
operand. -/
def usesPointer (op : Byte) : Bool :=
  match top op with
  | 0 =>
    match bottom op with
    | 1 => oddRow op || pairCode op == 2
    | 2 => middle op == 4 || middle op == 5
    | 3 => pairCode op == 2
    | 4 | 5 | 6 => middle op ∈ [4, 5, 6]
    | _ => false
  | 1 => (middle op == 6) != (bottom op == 6) || middle op ∈ [4, 5] || bottom op ∈ [4, 5]
  | 2 => bottom op ∈ [4, 5, 6]
  | _ =>
    match bottom op with
    | 1 => pairCode op == 2 || (oddRow op && pairCode op == 3)
    | 3 => middle op == 4
    | 5 => !oddRow op && pairCode op == 2
    | _ => false

/-- The codes with an arm are those that use the pointer and those that go on to
another page. -/
theorem mem_armCodes_iff (op : Byte) :
    op ∈ armCodes ↔ usesPointer op ∨ op ∈ 0xCB :: 0xED :: prefixes := by
  have harms : armCodes.all fun op => usesPointer op ∨ op ∈ 0xCB :: 0xED :: prefixes := by
    decide +kernel
  constructor
  · intro hop
    exact of_decide_eq_true (List.all_eq_true.mp harms op hop)
  · revert op
    decide +kernel

variable {op : Byte} (h : usesPointer op = false)
include h

theorem lowQuarter_behind (htop : top op = 0) : lowQuarter p op = lowQuarter .hl op := by
  simp only [usesPointer, htop] at h
  -- The cases are the rows of the quarter, by the bottom field.
  simp only [lowQuarter]
  split
  · rfl
  · rename_i hbottom
    simp only [hbottom, Bool.or_eq_false_iff, beq_eq_false_iff_ne] at h
    rw [h.1, (pair_of_code p h.2).1]
    rfl
  · rename_i hbottom
    simp only [hbottom, Bool.or_eq_false_iff, beq_eq_false_iff_ne] at h
    split <;> first | rfl | (exfalso; omega)
  · rename_i hbottom
    simp only [hbottom, beq_eq_false_iff_ne] at h
    rw [(pair_of_code p h).1]
  · rename_i hbottom
    simp only [hbottom, decide_eq_false_iff_not] at h
    exact onPlace_of_code p h .inc
  · rename_i hbottom
    simp only [hbottom, decide_eq_false_iff_not] at h
    exact onPlace_of_code p h .dec
  · rename_i hbottom
    simp only [hbottom, decide_eq_false_iff_not, List.mem_cons, not_or] at h
    cases hr : Reg8.ofCode (middle op) with
    | some r => simp only [half_of_code p (by simp [h.1, h.2.1]) hr]
    | none => exact absurd ((Reg8.ofCode_eq_none_iff _).mp hr) h.2.2.1
  · rfl

theorem loads_behind (htop : top op = 1) : loads p op = loads .hl op := by
  simp only [usesPointer, htop, Bool.or_eq_false_iff, bne_eq_false_iff_eq,
    decide_eq_false_iff_not] at h
  obtain ⟨⟨hboth, hmiddle⟩, hbottom⟩ := h
  have hnone : Reg8.ofCode (middle op) = none ↔ Reg8.ofCode (bottom op) = none := by
    rw [Reg8.ofCode_eq_none_iff, Reg8.ofCode_eq_none_iff, ← beq_iff_eq, hboth, beq_iff_eq]
  simp only [loads]
  cases hdst : Reg8.ofCode (middle op) with
  | none => rw [hnone.mp hdst]
  | some dst =>
      cases hsrc : Reg8.ofCode (bottom op) with
      | none => cases hdst.symm.trans (hnone.mpr hsrc)
      | some src => simp only [half_of_code p hmiddle hdst, half_of_code p hbottom hsrc]

theorem highQuarter_behind (htop : top op = 3) : highQuarter p op = highQuarter .hl op := by
  simp only [usesPointer, htop] at h
  simp only [highQuarter]
  split
  · rfl
  · rename_i hbottom
    simp only [hbottom, Bool.or_eq_false_iff, beq_eq_false_iff_ne, Bool.and_eq_false_imp] at h
    rw [(pair_of_code p h.1).2]
    split
    · rename_i hrow
      have hlast := h.2 hrow
      have hlt : pairCode op < 4 := Nat.mod_lt _ (by decide)
      obtain hcode | hcode : pairCode op = 0 ∨ pairCode op = 1 := by omega
      · simp only [hcode]
      · simp only [hcode]
    · rfl
  · rfl
  · rename_i hbottom
    simp only [hbottom, beq_eq_false_iff_ne] at h
    split <;> first | rfl | contradiction
  · rfl
  · rename_i hbottom
    simp only [hbottom, Bool.and_eq_false_imp, Bool.not_eq_true', beq_eq_false_iff_ne] at h
    split
    · rfl
    · rename_i hrow
      rw [(pair_of_code p (h (Bool.eq_false_iff.mpr hrow))).2]
  · rfl
  · rfl

/-- A code that does not use the pointer means the same with any pointer. -/
theorem decode_of_not_usesPointer : decode p op = decode .hl op := by
  simp only [decode]
  split
  · rename_i htop
    rw [lowQuarter_behind p h htop]
  · rename_i htop
    rw [loads_behind p h htop]
  · rename_i htop
    simp only [usesPointer, htop, decide_eq_false_iff_not] at h
    rw [onPlace_of_code p h]
  · rename_i hzero hone htwo
    exact highQuarter_behind p h (top_eq_three hzero hone htwo)

omit h in
theorem decode_of_not_mem (h : op ∉ armCodes) : decode p op = decode .hl op := by
  have huses : usesPointer op = false :=
    Bool.eq_false_iff.mpr fun huses => h ((mem_armCodes_iff op).mpr (.inl huses))
  exact decode_of_not_usesPointer p huses

end

/-- By its arms the page is the main page decoded with another pointer. -/
theorem decode_eq_behind {p : Pointer} (hp : p ≠ .hl) (op : Byte) :
    decode p op = behind p op := by
  have hcodes : (arms p).flatMap Arm.codes = armCodes := rfl
  simp only [behind]
  cases hfind : (arms p).find? fun arm => arm.codes.contains op with
  | some arm =>
      have hop := List.find?_some hfind
      rw [List.contains_iff_mem] at hop
      exact (begins_eq hp arm (List.mem_of_find?_eq_some hfind) op hop).symm
  | none =>
      refine decode_of_not_mem p fun hop => ?_
      rw [← hcodes, List.mem_flatMap] at hop
      obtain ⟨arm, harm, hop⟩ := hop
      exact List.find?_eq_none.mp hfind arm harm (List.contains_iff_mem.mpr hop)

example : behind .ix 0x66 = .instr (.byte fun d => .load .h (.ix d)) := rfl

/-- A code that falls through is the instruction of the main page, and only the prefix
is charged on top of it. -/
theorem falls_through {p : Pointer} (hp : p ≠ .hl) {op : Byte} (h : op ∉ armCodes) {form : Form}
    (hform : behind p op = .instr form) :
    decode .hl op = .instr form ∧
      Timing.cell .indexed op = Timing.cell .main op + Timing.indexPrefix := by
  rw [← decode_eq_behind hp] at hform
  have hmain : decode .hl op = .instr form := (decode_of_not_mem p h).symm.trans hform
  refine ⟨hmain, ?_⟩
  rw [← Timing.cost_indexed 0 0 hp hform, ← Timing.cost_main 0 0 hmain, Nat.add_comm]

/-- What a code costs more behind a prefix: the prefix, and on the memory operand the
displacement too, which is fetched and added. -/
def surcharge (op : Byte) : Nat :=
  Timing.indexPrefix + if op = 0x36 then 5 else if cellCodes.contains op then 8 else 0

/-- The bit page counts the prefix itself. -/
theorem cell_indexed_eq (op : Byte) :
    Timing.cell .indexed op = if op = 0xCB then 0 else Timing.cell .main op + surcharge op := by
  rw [Timing.cell_eq Indexes.ix.ne_hl .main]
  refine Timing.cell_of_table (f := fun op =>
    if op = 0xCB then 0 else Timing.entry .ix .main op + surcharge op) ?_ op
  decide +kernel

end Opcode
end Z80
