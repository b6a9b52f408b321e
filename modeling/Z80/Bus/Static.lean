import Z80.Bus.Flat
import Z80.Bus.Banked

/-!
Buses on which reading has no effect. A bus is static when its reads and its
two kinds of fetches give bytes that are there, and change nothing; the
three may still come from different memories. On a plain bus they all give
the same byte.
-/
namespace Z80.Bus

/-- Reads, opcode fetches and operand fetches give the bytes of three views
of the bus and leave it as it is. -/
structure Static {σ : Type} [Bus σ] (data opcodes operands : σ → Word → Byte) : Prop where
  read_eq (a : Word) (s : σ) : Bus.read a s = (data s a, s)
  fetchOpcode_eq (a : Word) (s : σ) : Bus.fetchOpcode a s = (opcodes s a, s)
  fetchOperand_eq (a : Word) (s : σ) : Bus.fetchOperand a s = (operands s a, s)

/-- Everything is read from one memory. -/
abbrev Plain {σ : Type} [Bus σ] (memory : σ → Word → Byte) : Prop :=
  Static memory memory memory

theorem Flat.plain : Plain Flat.peek where
  read_eq _ _ := rfl
  fetchOpcode_eq _ _ := rfl
  fetchOperand_eq _ _ := rfl

theorem Banked.static :
    Static (fun b : Banked => b.data.peek) (fun b => b.opcodes.get) (fun b => b.operands.get) where
  read_eq _ _ := rfl
  fetchOpcode_eq _ _ := rfl
  fetchOperand_eq _ _ := rfl

end Z80.Bus
