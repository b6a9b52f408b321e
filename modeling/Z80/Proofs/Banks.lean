import Z80.Context
import Z80.Daisy.StateLatch
import Z80.Proofs.Acceleration

/-!
Runs on a bus of several banks. The accelerator looks for loops with plain
reads, while the processor fetches from banks of its own. A run is what it
would be with every round executed as long as each loop that the reads show is
one that is fetched; otherwise the accelerator may skip rounds of a loop that
is not there.
-/
namespace Z80

variable {σ δ : Type}

namespace Bus

/-- Read-only memories for reads, opcodes and operands, with nothing else on
the bus. -/
structure Rom (data opcodes operands : Word → Byte) : Type

variable {data opcodes operands : Word → Byte}

instance : Bus (Rom data opcodes operands) where
  read a rom := (data a, rom)
  write _ _ rom := ((), rom)
  fetchOpcode a rom := (opcodes a, rom)
  fetchOperand a rom := (operands a, rom)

theorem Rom.static :
    Static (fun _ : Rom data opcodes operands => data) (fun _ => opcodes) (fun _ => operands) where
  read_eq _ _ := rfl
  fetchOpcode_eq _ _ := rfl
  fetchOperand_eq _ _ := rfl

end Bus

namespace Machine

variable [Bus σ] [Peripheral δ] {data opcodes operands : σ → Word → Byte}

/-- On a bus that shows its loops the accelerator changes nothing. -/
theorem run_literal_of_shows (h : Bus.Static data opcodes operands) (budget : BitVec 32)
    (m : Machine σ δ)
    (hshows : ∀ bus ∈ m.buses budget.toNat, Exec.ShowsLoops data opcodes operands bus) :
    m.literal.run budget = ((m.run budget).1, (m.run budget).2.literal) := by
  simp only [run, runFor_literal_of_shows h budget.toNat m hshows]
  rfl

/-- The reads show a `NOP` everywhere, also the one that is fetched before a
jump back to it. -/
theorem run_literal_of_shows_rom :
    let opcodes : Word → Byte := fun a => if a = 1 then 0x18 else 0x00
    let operands : Word → Byte := fun a => if a = 2 then 0xFD else 0x00
    let m : Machine (Bus.Rom (fun _ => 0x00) opcodes operands) StateLatch := ⟨{}, {}⟩
    (∀ bus ∈ m.buses 100,
      Exec.ShowsLoops (fun _ _ => 0x00) (fun _ => opcodes) (fun _ => operands) bus) ∧
    m.literal.run 100 = ((m.run 100).1, (m.run 100).2.literal) := by
  intro opcodes operands m
  have hshows (bus : Bus.Rom (fun _ => 0x00) opcodes operands) :
      Exec.ShowsLoops (fun _ _ => 0x00) (fun _ => opcodes) (fun _ => operands) bus := by
    have hjumps (addr : Word) (i : Instr) (n : Nat)
        (hi : Exec.Spells (fun _ => opcodes) (fun _ => operands) bus addr i n) :
        addr = 1 ∧ i = .jr (operands (addr + 1)) ∨ i = .nop := by
      obtain ⟨form, hform, -, rfl⟩ := hi
      by_cases haddr : addr = 1
      · simp only [opcodes, if_pos haddr] at hform
        cases hform
        exact .inl ⟨haddr, rfl⟩
      · simp only [opcodes, if_neg haddr] at hform
        cases hform
        exact .inr rfl
    constructor
    · rintro addr i ⟨hjump, n, hi, -⟩ -
      rcases hjumps addr i n hi with ⟨rfl, -⟩ | rfl
      · rfl
      · cases hjump
    · rintro c addr jump hdec -
      rcases hjumps addr _ 0 hdec with ⟨-, hjr⟩ | hnop
      · cases hjr
      · cases hnop
  exact ⟨fun bus _ => hshows bus, run_literal_of_shows Bus.Rom.static 100 m fun bus _ => hshows bus⟩

/-- The reads show a `NOP` before the jump, where an `INC A` is fetched: its
rounds are lost, but for the first and the last. -/
theorem run_literal_ne :
    let bus : Bus.Banked :=
      { opcodes := Memory.blank.load 0 [0x3C, 0x18], operands := Memory.blank.load 2 [0xFD] }
    let m : Machine Bus.Banked StateLatch := ⟨{}, bus⟩
    Bus.Static (fun b : Bus.Banked => b.data.peek) (fun b => b.opcodes.get)
      (fun b => b.operands.get) ∧
    bus.opcodes.get 0 = 0x3C ∧ bus.data.peek 0 = 0x00 ∧
    (m.run 100).1 = (m.literal.run 100).1 ∧
    (m.run 100).2.cpu.context.regs.a = 2 ∧ (m.literal.run 100).2.cpu.context.regs.a = 7 := by
  intro bus m
  refine ⟨Bus.Banked.static, ?_, ?_, ?_, ?_, ?_⟩
  all_goals decide +kernel

end Machine
end Z80
