import Z80.Daisy.StateLatch
import Z80.Proofs.Blocks

/-!
The repeating input and output. Their counter is a byte, and it is also the
high byte of the I/O address: an output lowers it before the access, an input
after it.
-/
namespace Z80

open Bus (Flat)

variable {δ : Type}

namespace Byte

/-- The rounds that a counter stands for. A counter of 0 has wrapped. -/
def rounds (b : Byte) : Nat :=
  if b = 0 then 0x100 else b.toNat

theorem counts_rounds (b : Byte) : Counts b b.rounds :=
  .wrapping b

end Byte

/-- As many steps as there are addresses lead back for the first time. -/
theorem Direction.ahead_inj {dir : Direction} {a : Word} {i j : Nat} (hi : i < 0x10000)
    (hj : j < 0x10000) : dir.ahead i a = dir.ahead j a ↔ i = j := by
  have hnumber : BitVec.ofNat 16 i = BitVec.ofNat 16 j ↔ i = j := by
    rw [← BitVec.toNat_inj, BitVec.toNat_ofNat, BitVec.toNat_ofNat, Nat.mod_eq_of_lt hi,
      Nat.mod_eq_of_lt hj]
  cases dir with
  | up => rw [ahead, ahead, BitVec.add_right_inj, hnumber]
  | down =>
      rw [← hnumber, ahead, ahead]
      constructor <;> intro h <;> grind

namespace Bus.IoSpace

/-- Records outputs in their order. -/
def recordAll (writes : List (Word × Byte)) (io : IoSpace) : IoSpace :=
  { io with output := io.output ++ writes.toArray }

theorem record_recordAll (writes : List (Word × Byte)) (a : Word) (v : Byte) (io : IoSpace) :
    (io.recordAll writes).record a v = io.recordAll (writes ++ [(a, v)]) := by
  simp only [record, recordAll, Array.push_append, List.push_toArray]

end Bus.IoSpace

/-- The memory after a number of bytes were stored one after the other. -/
def Memory.fill (dir : Direction) (dst : Word) (bytes : Nat → Byte) (memory : Memory) :
    Nat → Memory
  | 0 => memory
  | n + 1 => (fill dir dst bytes memory n).set (dir.ahead n dst) (bytes n)

namespace Memory

variable {dir : Direction} {dst x : Word} {bytes : Nat → Byte} {memory : Memory} {i n : Nat}

theorem get_fill_of_ne (h : ∀ i < n, dir.ahead i dst ≠ x) :
    (memory.fill dir dst bytes n).get x = memory.get x := by
  induction n with
  | zero => rfl
  | succ n ih =>
      rw [fill, get_set_of_ne _ _ (h n (by omega)).symm]
      exact ih fun i hi => h i (by omega)

/-- Fewer bytes than there are addresses do not overwrite each other. -/
theorem get_fill (hi : i < n) (hn : n ≤ 0x10000) :
    (memory.fill dir dst bytes n).get (dir.ahead i dst) = bytes i := by
  induction n with
  | zero => omega
  | succ n ih =>
      by_cases hlast : i = n
      · subst i
        rw [fill, get_set_self]
      · have hne : dir.ahead i dst ≠ dir.ahead n dst := fun h =>
          hlast ((Direction.ahead_inj (by omega) (by omega)).mp h)
        rw [fill, get_set_of_ne _ _ hne]
        exact ih (by omega) (by omega)

end Memory

namespace Registers

/-- The registers after one byte was input or output. -/
def transferRound (dir : Direction) (v : Byte) (k : Nat) (wz : Word) (r : Registers) :
    Registers :=
  let b := r.b - 1
  { r.setHL (r.hl + dir.step) with b, wz }.endRound (b != 0) (Block.ioFlags b v k)
    (Block.ioFlagsAgain b v k)

theorem endRound_counter (again : Bool) (last next : Flags) (r : Registers) :
    (r.endRound again last next).b = r.b ∧ (r.endRound again last next).c = r.c := by
  cases again <;> exact ⟨rfl, rfl⟩

theorem endRound_z (again : Bool) {last next : Flags} (h : next.z = last.z) (r : Registers) :
    (r.endRound again last next).f.z = last.z := by
  cases again with
  | true => exact h
  | false => rfl

variable (dir : Direction) (v : Byte) (k : Nat) (wz : Word) (r : Registers)

theorem transferRound_hl : (r.transferRound dir v k wz).hl = r.hl + dir.step :=
  (endRound_hl ..).trans (hl_setHL (r.hl + dir.step) r)

theorem transferRound_counter :
    (r.transferRound dir v k wz).b = r.b - 1 ∧ (r.transferRound dir v k wz).c = r.c :=
  endRound_counter ..

/-- Another round puts the counter through the adder once more, but it leaves
the flag for zero. -/
theorem transferRound_z : (r.transferRound dir v k wz).f.z = (r.b - 1 == 0) := by
  have hz : (Block.ioFlagsAgain (r.b - 1) v k).z = (Block.ioFlags (r.b - 1) v k).z := rfl
  exact endRound_z _ hz _

end Registers

namespace Exec

/-- One byte of output to a flat bus. The counter is lowered before. -/
theorem blockOutput_flat (dir : Direction) (m : Machine Flat δ) :
    let r := m.cpu.regs
    let v := m.bus.peek r.hl
    let addr := Word.ofBytes (r.b - 1) r.c
    ∃ k wz, blockOutput dir true m =
      (r.b - 1 != 0, ⟨m.cpu.modifyRegs (Registers.transferRound dir v k wz),
        { m.bus with io := m.bus.io.record addr v }⟩) :=
  ⟨_, _, rfl⟩

/-- One byte of input from a flat bus. The counter is lowered behind. -/
theorem blockInput_flat (dir : Direction) (m : Machine Flat δ) :
    let r := m.cpu.regs
    let v := m.bus.io.input r.bc
    ∃ k wz, blockInput dir true m =
      (r.b - 1 != 0, ⟨m.cpu.modifyRegs (Registers.transferRound dir v k wz),
        m.bus.poke r.hl v⟩) :=
  ⟨_, _, rfl⟩

end Exec

/-- A repeating input or output of `n` bytes that began at `m`, after `i` of them. -/
structure Machine.Transferred (dir : Direction) (n : Nat) (m : Machine Flat δ) (i : Nat)
    (now : Machine Flat δ) : Prop where
  undisturbed : now.cpu.Undisturbed
  pc (h : i < n) : now.cpu.regs.pc = m.cpu.regs.pc
  hl : now.cpu.regs.hl = dir.ahead i m.cpu.regs.hl
  b : now.cpu.regs.b = m.cpu.regs.b - BitVec.ofNat 8 i
  c : now.cpu.regs.c = m.cpu.regs.c
  z (h : 0 < i) : now.cpu.regs.f.z = (m.cpu.regs.b - BitVec.ofNat 8 i == 0)

namespace Machine

/-- What the first rounds of a repeating output write, each to an address of
its own. -/
def outputs (dir : Direction) (m : Machine Flat δ) (n : Nat) : List (Word × Byte) :=
  (List.range n).map fun i =>
    (Word.ofBytes (m.cpu.regs.b - BitVec.ofNat 8 (i + 1)) m.cpu.regs.c,
      m.bus.peek (dir.ahead i m.cpu.regs.hl))

theorem outputs_succ (dir : Direction) (m : Machine Flat δ) (i : Nat) :
    m.outputs dir (i + 1) = m.outputs dir i ++
      [(Word.ofBytes (m.cpu.regs.b - BitVec.ofNat 8 (i + 1)) m.cpu.regs.c,
        m.bus.peek (dir.ahead i m.cpu.regs.hl))] := by
  rw [outputs, List.range_succ, List.map_append]
  rfl

/-- The byte that a round of a repeating input reads. -/
def inputAt (m : Machine Flat δ) (i : Nat) : Byte :=
  m.bus.io.input (Word.ofBytes (m.cpu.regs.b - BitVec.ofNat 8 i) m.cpu.regs.c)

variable {dir : Direction} {n i k : Nat} {m now : Machine Flat δ} {v : Byte} {wz : Word}

theorem Transferred.start (hm : m.cpu.Undisturbed) : Transferred dir n m 0 m where
  undisturbed := hm
  pc _ := rfl
  hl := (Direction.ahead_zero ..).symm
  b := (BitVec.sub_zero _).symm
  c := rfl
  z h := absurd h (Nat.lt_irrefl 0)

theorem Transferred.counter (h : Transferred dir n m i now) :
    now.cpu.regs.b - 1 = m.cpu.regs.b - BitVec.ofNat 8 (i + 1) := by
  rw [h.b, sub_ofNat_sub_one]

variable [Peripheral δ]

/-- A round of a repeating input or output, whatever it did on the bus. -/
theorem Transferred.next (h : Transferred dir n m i now) (hi : i < n)
    (hn : Counts m.cpu.regs.b n) (hround : BlockRound (m.cpu.regs.b - BitVec.ofNat 8 (i + 1) != 0) now)
    (hundisturbed : now.next.cpu.Undisturbed)
    (hregs : now.next.cpu.regs = now.cpu.regs.extended.transferRound dir v k wz) :
    BlockRound (i + 1 < n) now ∧ Transferred dir n m (i + 1) now.next := by
  have hcounter := Registers.transferRound_counter dir v k wz now.cpu.regs.extended
  rw [hn.sub_ne_zero hi] at hround
  refine ⟨hround, ⟨hundisturbed, fun hlast => ?_, ?_, ?_, ?_, fun _ => ?_⟩⟩
  · rw [hround.pc, decide_eq_true hlast, h.pc hi]
    rfl
  · rw [hregs, Registers.transferRound_hl, Registers.extended_hl, h.hl, Direction.ahead_succ]
  · rw [hregs, hcounter.1, Registers.extended_b, h.counter]
  · rw [hregs, hcounter.2, Registers.extended_c, h.c]
  · rw [hregs, Registers.transferRound_z, Registers.extended_b, h.counter]

/-- A round of a repeating output. It writes one byte. -/
theorem Transferred.next_output (h : Transferred dir n m i now) (hi : i < n)
    (hn : Counts m.cpu.regs.b n)
    (hbytes : Holds m.bus.peek m.cpu.regs.pc [0xED, Opcode.repeating .output dir])
    (hbus : now.bus = { m.bus with io := m.bus.io.recordAll (m.outputs dir i) }) :
    BlockRound (i + 1 < n) now ∧ Transferred dir n m (i + 1) now.next ∧
      now.next.bus = { m.bus with io := m.bus.io.recordAll (m.outputs dir (i + 1)) } := by
  have hbytes' : Holds now.bus.peek now.cpu.regs.pc [0xED, Opcode.repeating .output dir] := by
    rw [hbus, h.pc hi]
    exact hbytes
  obtain ⟨k, wz, hblock⟩ := Exec.blockOutput_flat dir (now.onRegs Registers.extended)
  simp only [onRegs_regs, onRegs_bus, Registers.extended_b, Registers.extended_c,
    Registers.extended_hl, h.counter, h.c, h.hl] at hblock
  have hnext := next_repeating Bus.Flat.plain h.undisturbed hbytes'
  rw [Exec.block, hblock] at hnext
  obtain ⟨hround, hundisturbed, hregs, hwritten⟩ := hnext
  obtain ⟨hround', htransferred⟩ := h.next hi hn hround hundisturbed hregs
  refine ⟨hround', htransferred, ?_⟩
  rw [hwritten, hbus, outputs_succ, ← Bus.IoSpace.record_recordAll]
  rfl

/-- A round of a repeating input. It stores one byte, but not over its own
opcode. -/
theorem Transferred.next_input (h : Transferred dir n m i now) (hi : i < n)
    (hn : Counts m.cpu.regs.b n)
    (hbytes : Holds m.bus.peek m.cpu.regs.pc [0xED, Opcode.repeating .input dir])
    (hapart : ∀ j < n, dir.ahead j m.cpu.regs.hl ≠ m.cpu.regs.pc ∧
      dir.ahead j m.cpu.regs.hl ≠ m.cpu.regs.pc + 1)
    (hbus : now.bus = { m.bus with
      memory := m.bus.memory.fill dir m.cpu.regs.hl m.inputAt i }) :
    BlockRound (i + 1 < n) now ∧ Transferred dir n m (i + 1) now.next ∧
      now.next.bus = { m.bus with
        memory := m.bus.memory.fill dir m.cpu.regs.hl m.inputAt (i + 1) } := by
  have hkept (x : Word) (hx : ∀ j < i, dir.ahead j m.cpu.regs.hl ≠ x) :
      now.bus.peek x = m.bus.peek x := by
    rw [hbus]
    exact Memory.get_fill_of_ne hx
  have hbytes' : Holds now.bus.peek now.cpu.regs.pc [0xED, Opcode.repeating .input dir] := by
    obtain ⟨hpage, hcode, -⟩ := hbytes
    rw [h.pc hi]
    exact ⟨(hkept _ fun j hj => (hapart j (by omega)).1).trans hpage,
      (hkept _ fun j hj => (hapart j (by omega)).2).trans hcode, trivial⟩
  obtain ⟨k, wz, hblock⟩ := Exec.blockInput_flat dir (now.onRegs Registers.extended)
  simp only [onRegs_regs, onRegs_bus, Registers.extended_b, Registers.extended_bc,
    Registers.extended_hl, h.counter, h.hl] at hblock
  have hnext := next_repeating Bus.Flat.plain h.undisturbed hbytes'
  rw [Exec.block, hblock] at hnext
  obtain ⟨hround, hundisturbed, hregs, hstored⟩ := hnext
  obtain ⟨hround', htransferred⟩ := h.next hi hn hround hundisturbed hregs
  have hread : now.bus.io.input now.cpu.regs.bc = m.inputAt i := by
    rw [hbus, Registers.bc, h.b, h.c]
    rfl
  refine ⟨hround', htransferred, ?_⟩
  rw [hstored, hread, hbus]
  rfl

/-- A repeating input or output takes as many rounds as its counter says. An
output writes the bytes that stand in memory, an input stores those that it
reads, unless it would reach its own opcode. -/
theorem transfer_passes (hm : m.cpu.Undisturbed) :
    let r := m.cpu.regs
    let n := r.b.rounds
    let done := next^[n] m
    let ended := m.Passes n ∧ done.cpu.regs.b = 0 ∧ done.cpu.regs.c = r.c ∧
      done.cpu.regs.hl = dir.ahead n r.hl ∧ done.cpu.regs.f.z = true
    (Holds m.bus.peek r.pc [0xED, Opcode.repeating .output dir] →
      ended ∧ done.bus = { m.bus with io := m.bus.io.recordAll (m.outputs dir n) }) ∧
    (Holds m.bus.peek r.pc [0xED, Opcode.repeating .input dir] →
      (∀ i < n, dir.ahead i r.hl ≠ r.pc ∧ dir.ahead i r.hl ≠ r.pc + 1) →
      ended ∧ (∀ i < n, done.bus.peek (dir.ahead i r.hl) = m.inputAt i) ∧
        (∀ x, (∀ i < n, dir.ahead i r.hl ≠ x) → done.bus.peek x = m.bus.peek x) ∧
        done.bus.io = m.bus.io) := by
  intro r n done ended
  have hn : Counts r.b n := r.b.counts_rounds
  have hcount : r.b - BitVec.ofNat 8 n = 0 := by
    rw [hn.sub_ofNat (Nat.le_refl n), Nat.sub_self]
    rfl
  have hended (hpasses : m.Passes n) (h : Transferred dir n m n done) : ended := by
    refine ⟨hpasses, h.b.trans hcount, h.c, h.hl, ?_⟩
    rw [h.z hn.pos, hcount]
    rfl
  constructor
  · intro hbytes
    obtain ⟨hpasses, hdone, hbus⟩ := passes_of_invariant hn.pos
      (I := fun i now => Transferred dir n m i now ∧
        now.bus = { m.bus with io := m.bus.io.recordAll (m.outputs dir i) })
      ⟨.start hm, rfl⟩ fun i now hi h => h.1.next_output hi hn hbytes h.2
    exact ⟨hended hpasses hdone, hbus⟩
  · intro hbytes hapart
    obtain ⟨hpasses, hdone, hbus⟩ := passes_of_invariant hn.pos
      (I := fun i now => Transferred dir n m i now ∧
        now.bus = { m.bus with memory := m.bus.memory.fill dir r.hl m.inputAt i })
      ⟨.start hm, rfl⟩ fun i now hi h => h.1.next_input hi hn hbytes hapart h.2
    have hle : n ≤ 0x10000 := Nat.le_trans hn.le (by decide)
    refine ⟨hended hpasses hdone, fun i hi => ?_, fun x hx => ?_, ?_⟩
    · rw [hbus]
      exact Memory.get_fill hi hle
    · rw [hbus]
      exact Memory.get_fill_of_ne hx
    · rw [hbus]

/-- An output of its own code, and an input with a counter of zero that goes
on past the bottom of memory. -/
theorem transfer_passes_wrapped :
    let m : Machine Flat StateLatch :=
      ⟨{ regs := { b := 2, c := 0x10, h := 0, l := 1 } }, Flat.load 0 [0xED, 0xBB] {}⟩
    let k : Machine Flat StateLatch :=
      ⟨{ regs := { pc := 0x10, b := 0, c := 0x20 } },
        (Flat.load 0x10 [0xED, 0xBA] {}).latchInput 0x0120 0x55⟩
    m.cpu.Undisturbed ∧ Holds m.bus.peek m.cpu.regs.pc [0xED, Opcode.repeating .output .down] ∧
    m.Passes 2 ∧ (next^[2] m).bus.io.output = #[(0x0110, 0xBB), (0x0010, 0xED)] ∧
    k.cpu.Undisturbed ∧ Holds k.bus.peek k.cpu.regs.pc [0xED, Opcode.repeating .input .down] ∧
    (∀ i < 0x100, Direction.down.ahead i k.cpu.regs.hl ≠ k.cpu.regs.pc ∧
      Direction.down.ahead i k.cpu.regs.hl ≠ k.cpu.regs.pc + 1) ∧
    k.Passes 0x100 ∧ (next^[0x100] k).bus.peek 0xFF01 = 0x55 := by
  intro m k
  have hm : m.cpu.Undisturbed := ⟨rfl, rfl⟩
  have hk : k.cpu.Undisturbed := ⟨rfl, rfl⟩
  have hbytes : Holds m.bus.peek m.cpu.regs.pc [0xED, Opcode.repeating .output .down] := by
    decide +kernel
  have hbytes' : Holds k.bus.peek k.cpu.regs.pc [0xED, Opcode.repeating .input .down] := by
    decide +kernel
  have hapart : ∀ i < 0x100, Direction.down.ahead i k.cpu.regs.hl ≠ k.cpu.regs.pc ∧
      Direction.down.ahead i k.cpu.regs.hl ≠ k.cpu.regs.pc + 1 := by
    decide +kernel
  obtain ⟨⟨hpasses, -⟩, hbus⟩ := (transfer_passes hm).1 hbytes
  obtain ⟨⟨hpasses', -⟩, hstored, -⟩ := (transfer_passes hk).2 hbytes' hapart
  refine ⟨hm, hbytes, hpasses, ?_, hk, hbytes', hapart, hpasses', ?_⟩
  · exact (congrArg (fun bus : Flat => bus.io.output) hbus).trans (by decide +kernel)
  · have haddr : Direction.down.ahead 255 k.cpu.regs.hl = 0xFF01 := by decide +kernel
    have hread : k.inputAt 255 = 0x55 := by decide +kernel
    rw [← haddr, ← hread]
    exact hstored 255 (by decide)

end Machine
end Z80
