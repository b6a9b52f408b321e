import Z80.Daisy.StateLatch
import Z80.Proofs.Blocks

/-!
The repeating copy. It copies bytes one by one, each from where the bytes
before it have left the memory.
-/
namespace Z80

open Bus (Flat)

variable {δ : Type}

/-- The memory after a number of bytes were copied one after the other. -/
def Memory.copy (dir : Direction) (src dst : Word) (memory : Memory) : Nat → Memory
  | 0 => memory
  | n + 1 =>
    let memory := copy dir src dst memory n
    memory.set (dir.ahead n dst) (memory.get (dir.ahead n src))

theorem Memory.get_copy_of_ne {dir : Direction} {src dst x : Word} {memory : Memory} {n : Nat}
    (h : ∀ i < n, dir.ahead i dst ≠ x) : (memory.copy dir src dst n).get x = memory.get x := by
  induction n with
  | zero => rfl
  | succ n ih =>
      rw [copy, get_set_of_ne _ _ (h n (by omega)).symm]
      exact ih fun i hi => h i (by omega)

namespace Registers

/-- The registers after one byte was copied. -/
def copyRound (dir : Direction) (v : Byte) (r : Registers) : Registers :=
  let more := r.bc - 1 != 0
  let f := Block.copyFlags r.a v r.f more
  (((r.setHL (r.hl + dir.step)).setDE (r.de + dir.step)).setBC (r.bc - 1)).endRound more f f

variable (dir : Direction) (v : Byte) (r : Registers)

theorem copyRound_hl : (r.copyRound dir v).hl = r.hl + dir.step :=
  (endRound_hl ..).trans (hl_setHL (r.hl + dir.step) r)

theorem copyRound_de : (r.copyRound dir v).de = r.de + dir.step :=
  (endRound_de ..).trans (de_setDE (r.de + dir.step) r)

theorem copyRound_bc : (r.copyRound dir v).bc = r.bc - 1 :=
  (endRound_bc ..).trans (bc_setBC (r.bc - 1) r)

theorem copyRound_r : (r.copyRound dir v).r = r.r :=
  endRound_r ..

theorem copyRound_documented :
    (r.copyRound dir v).f.documented =
      { r.f.documented with h := false, p := r.bc - 1 != 0, n := false } :=
  endRound_documented ..

end Registers

theorem Exec.blockCopy_flat (dir : Direction) (m : Machine Flat δ) :
    blockCopy dir true m =
      let r := m.cpu.regs
      let v := m.bus.peek r.hl
      (r.bc - 1 != 0, ⟨m.cpu.modifyRegs (Registers.copyRound dir v), m.bus.poke r.de v⟩) := rfl

/-- A round of a repeating copy. -/
theorem Machine.next_copy [Peripheral δ] {dir : Direction} {m : Machine Flat δ}
    (h : m.cpu.Undisturbed)
    (hbytes : Holds m.bus.peek m.cpu.regs.pc [0xED, Opcode.repeating .copy dir]) :
    let v := m.bus.peek m.cpu.regs.hl
    BlockRound (m.cpu.regs.bc - 1 != 0) m ∧ m.next.cpu.Undisturbed ∧
      m.next.cpu.regs = m.cpu.regs.extended.copyRound dir v ∧
      m.next.bus = m.bus.poke m.cpu.regs.de v := by
  have hblock := Exec.blockCopy_flat dir (m.onRegs Registers.extended)
  simp only [onRegs_regs, onRegs_bus, Registers.extended_bc, Registers.extended_de,
    Registers.extended_hl] at hblock
  have hnext := next_repeating Flat.plain h hbytes
  rw [Exec.block, hblock] at hnext
  exact hnext

/-- A repeating copy of `n` bytes that began at `m`, after `i` of them. -/
structure Machine.Copied (dir : Direction) (n : Nat) (m : Machine Flat δ) (i : Nat)
    (now : Machine Flat δ) : Prop where
  undisturbed : now.cpu.Undisturbed
  pc (h : i < n) : now.cpu.regs.pc = m.cpu.regs.pc
  bus : now.bus = { m.bus with
    memory := m.bus.memory.copy dir m.cpu.regs.hl m.cpu.regs.de i }
  hl : now.cpu.regs.hl = dir.ahead i m.cpu.regs.hl
  de : now.cpu.regs.de = dir.ahead i m.cpu.regs.de
  bc : now.cpu.regs.bc = m.cpu.regs.bc - BitVec.ofNat 16 i
  r : now.cpu.regs.r = (Registers.refresh (2 * i) m.cpu.regs).r
  flags : now.cpu.regs.f.documented =
    if i = 0 then m.cpu.regs.f.documented
    else { m.cpu.regs.f.documented with
      h := false, p := m.cpu.regs.bc - BitVec.ofNat 16 i != 0, n := false }

namespace Machine

variable {dir : Direction} {n i : Nat} {m now : Machine Flat δ}

theorem Copied.start (hm : m.cpu.Undisturbed) : Copied dir n m 0 m where
  undisturbed := hm
  pc _ := rfl
  bus := rfl
  hl := (Direction.ahead_zero ..).symm
  de := (Direction.ahead_zero ..).symm
  bc := (BitVec.sub_zero _).symm
  r := by rw [Nat.mul_zero, Registers.refresh_zero]
  flags := rfl

variable [Peripheral δ]

theorem Copied.next (h : Copied dir n m i now) (hi : i < n) (hn : n = m.cpu.regs.bc.rounds)
    (hbytes : Holds m.bus.peek m.cpu.regs.pc [0xED, Opcode.repeating .copy dir])
    (hapart : ∀ j < n, dir.ahead j m.cpu.regs.de ≠ m.cpu.regs.pc ∧
      dir.ahead j m.cpu.regs.de ≠ m.cpu.regs.pc + 1) :
    BlockRound (i + 1 < n) now ∧ Copied dir n m (i + 1) now.next := by
  -- The opcode itself was not overwritten.
  have hkept (x : Word) (hx : ∀ j < i, dir.ahead j m.cpu.regs.de ≠ x) :
      now.bus.peek x = m.bus.peek x := by
    rw [h.bus]
    exact Memory.get_copy_of_ne hx
  have hbytes' : Holds now.bus.peek now.cpu.regs.pc [0xED, Opcode.repeating .copy dir] := by
    obtain ⟨hpage, hcode, -⟩ := hbytes
    rw [h.pc hi]
    exact ⟨(hkept _ fun j hj => (hapart j (by omega)).1).trans hpage,
      (hkept _ fun j hj => (hapart j (by omega)).2).trans hcode, trivial⟩
  obtain ⟨hround, hundisturbed, hregs, hbus⟩ := next_copy h.undisturbed hbytes'
  have hcount : now.cpu.regs.bc - 1 = m.cpu.regs.bc - BitVec.ofNat 16 (i + 1) := by
    rw [h.bc, sub_ofNat_sub_one]
  rw [hcount, (Word.counts_rounds _).sub_ne_zero (hn ▸ hi), ← hn] at hround
  refine ⟨hround, ⟨hundisturbed, fun hlast => ?_, ?_, ?_, ?_, ?_, ?_, ?_⟩⟩
  · rw [hround.pc, decide_eq_true hlast, h.pc hi]
    rfl
  · rw [hbus, h.bus, h.hl, h.de]
    rfl
  · rw [hregs, Registers.copyRound_hl, Registers.extended_hl, h.hl, Direction.ahead_succ]
  · rw [hregs, Registers.copyRound_de, Registers.extended_de, h.de, Direction.ahead_succ]
  · rw [hregs, Registers.copyRound_bc, Registers.extended_bc, hcount]
  · rw [hregs, Registers.copyRound_r, Registers.extended_r, Registers.refresh_r_congr h.r,
      Registers.refresh_refresh]
    rfl
  · rw [hregs, Registers.copyRound_documented, Registers.extended_f, Registers.extended_bc, hcount,
      h.flags, if_neg (Nat.succ_ne_zero i)]
    split <;> rfl

/-- A repeating copy that does not reach its own opcode. It takes as many
rounds as its counter says and copies the bytes one after the other, each from
where those before it have left the memory. Each round refreshes twice
(`Registers.refresh_r_toNat`). -/
theorem copy_passes (hm : m.cpu.Undisturbed)
    (hbytes : Holds m.bus.peek m.cpu.regs.pc [0xED, Opcode.repeating .copy dir])
    (hn : n = m.cpu.regs.bc.toNat) (hpos : 0 < n)
    (hapart : ∀ i < n, dir.ahead i m.cpu.regs.de ≠ m.cpu.regs.pc ∧
      dir.ahead i m.cpu.regs.de ≠ m.cpu.regs.pc + 1) :
    let done := next^[n] m
    m.Passes n ∧
    done.bus = { m.bus with
      memory := m.bus.memory.copy dir m.cpu.regs.hl m.cpu.regs.de n } ∧
    done.cpu.regs.bc = 0 ∧ done.cpu.regs.hl = dir.ahead n m.cpu.regs.hl ∧
    done.cpu.regs.de = dir.ahead n m.cpu.regs.de ∧
    done.cpu.regs.r = (Registers.refresh (2 * n) m.cpu.regs).r ∧
    done.cpu.regs.f.documented =
      { m.cpu.regs.f.documented with h := false, p := false, n := false } := by
  intro done
  have hrounds : n = m.cpu.regs.bc.rounds := by
    have hbc : m.cpu.regs.bc ≠ 0 := by
      intro h0
      rw [hn, h0] at hpos
      exact Nat.lt_irrefl 0 hpos
    rw [hn, Word.rounds, if_neg hbc]
  have hcount : m.cpu.regs.bc - BitVec.ofNat 16 n = 0 := by
    rw [hn, BitVec.ofNat_toNat, BitVec.setWidth_eq]
    exact BitVec.sub_self _
  obtain ⟨hpasses, hdone⟩ := passes_of_invariant hpos (Copied.start hm)
    fun i now hi h => h.next hi hrounds hbytes hapart
  refine ⟨hpasses, hdone.bus, hdone.bc.trans hcount, hdone.hl, hdone.de, hdone.r, ?_⟩
  rw [hdone.flags, if_neg (by omega), hcount]
  rfl

/-- A copy onto the byte behind the source, which spreads the first byte. -/
theorem copy_passes_overlap :
    let m : Machine Flat StateLatch :=
      ⟨{ regs := { b := 0, c := 3, h := 0, l := 2, d := 0, e := 3 } },
        Flat.load 0 [0xED, 0xB0, 0x55] {}⟩
    let done := next^[3] m
    m.cpu.Undisturbed ∧ Holds m.bus.peek m.cpu.regs.pc [0xED, Opcode.repeating .copy .up] ∧
    3 = m.cpu.regs.bc.toNat ∧
    (∀ i < 3, Direction.up.ahead i m.cpu.regs.de ≠ m.cpu.regs.pc ∧
      Direction.up.ahead i m.cpu.regs.de ≠ m.cpu.regs.pc + 1) ∧
    m.Passes 3 ∧ done.bus = { m.bus with
      memory := m.bus.memory.copy .up m.cpu.regs.hl m.cpu.regs.de 3 } ∧
    done.bus.peek 5 = 0x55 := by
  intro m done
  have hm : m.cpu.Undisturbed := ⟨rfl, rfl⟩
  have hbytes : Holds m.bus.peek m.cpu.regs.pc [0xED, Opcode.repeating .copy .up] := by
    decide +kernel
  have hapart : ∀ i < 3, Direction.up.ahead i m.cpu.regs.de ≠ m.cpu.regs.pc ∧
      Direction.up.ahead i m.cpu.regs.de ≠ m.cpu.regs.pc + 1 := by
    decide +kernel
  have hn : 3 = m.cpu.regs.bc.toNat := by decide +kernel
  obtain ⟨hpasses, hbus, -⟩ := copy_passes hm hbytes hn (by decide) hapart
  exact ⟨hm, hbytes, hn, hapart, hpasses, hbus, by decide +kernel⟩

end Machine
end Z80
