import Z80.Instr

/-!
The cost of instructions in T-states, the fetch of a page code included. An
index prefix costs four more. A memory operand at a displacement costs the
time to fetch the displacement and to add it, which is shorter where part of
it overlaps with another fetch.
-/
namespace Z80

namespace Timing

/-- Added by an index prefix. -/
def indexPrefix : Nat := 4

/-- Added to the entry of a maskable interrupt. -/
def irqLatency : Nat := 2

/-- Entry of a non-maskable interrupt. -/
def nmiEntry : Nat := 11

/-- One refresh cycle of a halted processor. -/
def haltUnit : Nat := 4

end Timing

/-- What a memory operand adds when it stands at a displacement. -/
def Cell.extra (displaced : Nat) : Cell → Nat
  | .hl => 0
  | .ix _ | .iy _ => displaced

namespace Instr

/-- The cost without an index prefix and without a taken branch. -/
def cost : Instr → Nat
  | .nop | .ld .. | .exDEHL | .exAF | .exx | .daa | .cpl | .scf | .ccf | .rotateA _
  | .jpPointer _ | .halt | .di | .ei => 4
  | .alu _ (.reg _) | .inc (.reg _) | .dec (.reg _) => 4
  | .ldImm .. | .aluImm .. => 7
  | .load _ m | .store m _ | .alu _ (.mem m) => 7 + m.extra 8
  | .storeImm m _ => 10 + m.extra 5
  | .inc (.mem m) | .dec (.mem m) => 11 + m.extra 8
  | .loadA (.absolute _) | .storeA (.absolute _) => 13
  | .loadA _ | .storeA _ => 7
  | .undefined | .neg | .im _ => 8
  | .ldSystem _ | .ldFromSystem _ => 9
  | .ldImm16 .. => 10
  | .loadPointer .. | .storePointer .. => 16
  | .load16 .. | .store16 .. => 20
  | .ldSP _ | .inc16 _ | .dec16 _ => 6
  | .push _ => 11
  | .pop _ => 10
  | .exSP _ => 19
  | .add16 .. => 11
  | .adc16 _ | .sbc16 _ => 15
  | .bits _ (.reg _) _ => 8
  | .bits (.bit _) (.mem m) _ => 12 + m.extra 4
  | .bits _ (.mem m) _ => 15 + m.extra 4
  | .rrd | .rld => 18
  | .jp _ | .jpIf .. => 10
  | .jr _ => 12
  | .jrIf .. => 7
  | .djnz _ => 8
  | .call _ => 17
  | .callIf .. => 10
  | .ret => 10
  | .retIf _ => 5
  | .retn | .reti => 14
  | .rst _ => 11
  | .inA _ | .outA _ => 11
  | .inC _ | .outC _ => 12
  | .block .. => 16

/-- What a taken branch or another round of a block instruction adds. -/
def extra : Instr → Nat
  | .jrIf .. | .djnz _ => 5
  | .retIf _ => 6
  | .callIf .. => 7
  | .block _ _ true => 5
  | _ => 0

theorem four_le_cost (i : Instr) : 4 ≤ i.cost := by
  unfold cost
  split <;> omega

end Instr
end Z80
