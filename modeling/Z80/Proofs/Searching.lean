import Mathlib.Order.Bounds.Defs
import Mathlib.Data.Nat.Find
import Z80.Daisy.StateLatch
import Z80.Proofs.Blocks

/-!
The repeating search. It compares bytes one by one with the accumulator, until
one of them is equal or the counter has run out.
-/
namespace Z80

open Bus (Flat)

variable {δ : Type}

theorem Block.searchFlags_z (a v : Byte) (f : Flags) (more : Bool) :
    (searchFlags a v f more).z = (v == a) := by
  have hflag : (searchFlags a v f more).z = (a - v == 0) := rfl
  have hzero : a - v = 0 ↔ v = a := by grind
  rw [hflag, Bool.eq_iff_iff, beq_iff_eq, beq_iff_eq, hzero]

namespace Registers

/-- The registers after one byte was compared. -/
def searchRound (dir : Direction) (v : Byte) (r : Registers) : Registers :=
  let more := r.bc - 1 != 0
  let f := Block.searchFlags r.a v r.f more
  let moved := (r.setHL (r.hl + dir.step)).setBC (r.bc - 1)
  { moved with wz := r.wz + dir.step }.endRound (more && !f.z) f f

variable (dir : Direction) (v : Byte) (r : Registers)

theorem searchRound_a : (r.searchRound dir v).a = r.a :=
  endRound_a ..

theorem searchRound_hl : (r.searchRound dir v).hl = r.hl + dir.step :=
  (endRound_hl ..).trans (hl_setHL (r.hl + dir.step) r)

theorem searchRound_bc : (r.searchRound dir v).bc = r.bc - 1 :=
  (endRound_bc ..).trans (bc_setBC (r.bc - 1) r)

/-- Whether another round follows or not, the flags are those of the byte. -/
theorem searchRound_flags :
    let f := (r.searchRound dir v).f
    f.z = (v == r.a) ∧ f.p = (r.bc - 1 != 0) ∧ f.n = true ∧ f.c = r.f.c := by
  obtain ⟨-, hz, -, hp, hn, hc⟩ := Flags.documented_inj.mp <|
    endRound_documented _ (r.bc - 1 != 0 && !(Block.searchFlags r.a v r.f (r.bc - 1 != 0)).z)
      (Block.searchFlags r.a v r.f (r.bc - 1 != 0))
  exact ⟨hz.trans (Block.searchFlags_z ..), hp, hn, hc⟩

end Registers

theorem Exec.blockSearch_flat (dir : Direction) (m : Machine Flat δ) :
    blockSearch dir true m =
      let r := m.cpu.regs
      let v := m.bus.peek r.hl
      let more := r.bc - 1 != 0
      (more && !(Block.searchFlags r.a v r.f more).z,
        ⟨m.cpu.modifyRegs (Registers.searchRound dir v), m.bus⟩) := rfl

/-- A round of a repeating search. -/
theorem Machine.next_search [Peripheral δ] {dir : Direction} {m : Machine Flat δ}
    (h : m.cpu.Undisturbed)
    (hbytes : Holds m.bus.peek m.cpu.regs.pc [0xED, Opcode.repeating .search dir]) :
    let v := m.bus.peek m.cpu.regs.hl
    BlockRound (m.cpu.regs.bc - 1 != 0 && !(v == m.cpu.regs.a)) m ∧ m.next.cpu.Undisturbed ∧
      m.next.cpu.regs = m.cpu.regs.extended.searchRound dir v ∧ m.next.bus = m.bus := by
  intro v
  have hblock := Exec.blockSearch_flat dir (m.onRegs Registers.extended)
  simp only [onRegs_regs, onRegs_bus, Registers.extended_bc, Registers.extended_hl,
    Registers.extended_a, Block.searchFlags_z] at hblock
  have hnext := next_repeating Flat.plain h hbytes
  rw [Exec.block, hblock] at hnext
  exact hnext

/-- A repeating search of `n` bytes that began at `m`, after `i` of them. -/
structure Machine.Searched (dir : Direction) (n : Nat) (m : Machine Flat δ) (i : Nat)
    (now : Machine Flat δ) : Prop where
  undisturbed : now.cpu.Undisturbed
  pc (h : i < n) : now.cpu.regs.pc = m.cpu.regs.pc
  bus : now.bus = m.bus
  a : now.cpu.regs.a = m.cpu.regs.a
  hl : now.cpu.regs.hl = dir.ahead i m.cpu.regs.hl
  bc : now.cpu.regs.bc = m.cpu.regs.bc - BitVec.ofNat 16 i
  carry : now.cpu.regs.f.c = m.cpu.regs.f.c
  /-- The flags are those of the byte before. -/
  flags (h : 0 < i) :
    now.cpu.regs.f.z = (m.bus.peek (dir.ahead (i - 1) m.cpu.regs.hl) == m.cpu.regs.a) ∧
    now.cpu.regs.f.p = (m.cpu.regs.bc - BitVec.ofNat 16 i != 0) ∧ now.cpu.regs.f.n = true

namespace Machine

variable {dir : Direction} {n i : Nat} {m now : Machine Flat δ}

theorem Searched.start (hm : m.cpu.Undisturbed) : Searched dir n m 0 m where
  undisturbed := hm
  pc _ := rfl
  bus := rfl
  a := rfl
  hl := (Direction.ahead_zero ..).symm
  bc := (BitVec.sub_zero _).symm
  carry := rfl
  flags h := absurd h (Nat.lt_irrefl 0)

/-- The numbers of bytes after which a search may end: those that reach a byte
equal to the accumulator, and all that the counter allows. -/
def hits (dir : Direction) (m : Machine Flat δ) : Set Nat :=
  { i | 1 ≤ i ∧ i ≤ m.cpu.regs.bc.rounds ∧
    (m.bus.peek (dir.ahead (i - 1) m.cpu.regs.hl) = m.cpu.regs.a ∨ i = m.cpu.regs.bc.rounds) }

theorem exists_isLeast_hits (dir : Direction) (m : Machine Flat δ) :
    ∃ n, IsLeast (m.hits dir) n := by
  classical
  have hlast : ∃ n, n ∈ m.hits dir := ⟨_, m.cpu.regs.bc.counts_rounds.pos, Nat.le_refl _, .inr rfl⟩
  exact ⟨Nat.find hlast, Nat.find_spec hlast, fun _ => Nat.find_min' hlast⟩

/-- A search goes on as long as the next number of bytes is too small. -/
theorem again_of_isLeast (hn : IsLeast (m.hits dir) n) (hi : i < n) :
    (decide (i + 1 < m.cpu.regs.bc.rounds) &&
      !(m.bus.peek (dir.ahead i m.cpu.regs.hl) == m.cpu.regs.a)) = decide (i + 1 < n) := by
  obtain ⟨⟨-, hle, hend⟩, hleast⟩ := hn
  by_cases hlast : i + 1 = n
  · subst n
    rw [Nat.add_sub_cancel] at hend
    rcases hend with hhit | hall
    · simp [hhit]
    · simp [← hall]
  · -- The first hit lies further on.
    have hmiss : ¬ i + 1 ∈ m.hits dir := fun hmem => absurd (hleast hmem) (by omega)
    have hne : m.bus.peek (dir.ahead i m.cpu.regs.hl) ≠ m.cpu.regs.a := fun hhit =>
      hmiss ⟨by omega, by omega, .inl hhit⟩
    rw [decide_eq_true (show i + 1 < m.cpu.regs.bc.rounds by omega),
      decide_eq_true (show i + 1 < n by omega), beq_false_of_ne hne]
    rfl

variable [Peripheral δ]

theorem Searched.next (h : Searched dir n m i now) (hn : IsLeast (m.hits dir) n) (hi : i < n)
    (hbytes : Holds m.bus.peek m.cpu.regs.pc [0xED, Opcode.repeating .search dir]) :
    BlockRound (i + 1 < n) now ∧ Searched dir n m (i + 1) now.next := by
  have hbytes' : Holds now.bus.peek now.cpu.regs.pc [0xED, Opcode.repeating .search dir] := by
    rw [h.bus, h.pc hi]
    exact hbytes
  obtain ⟨hround, hundisturbed, hregs, hbus⟩ := next_search h.undisturbed hbytes'
  have hrounds : i < m.cpu.regs.bc.rounds := Nat.lt_of_lt_of_le hi hn.1.2.1
  have hcount : now.cpu.regs.bc - 1 = m.cpu.regs.bc - BitVec.ofNat 16 (i + 1) := by
    rw [h.bc, sub_ofNat_sub_one]
  rw [hcount, (Word.counts_rounds _).sub_ne_zero hrounds, h.bus, h.hl, h.a, again_of_isLeast hn hi] at hround
  obtain ⟨hz, hp, hsub, hc⟩ :=
    Registers.searchRound_flags dir (now.bus.peek now.cpu.regs.hl) now.cpu.regs.extended
  rw [← hregs] at hz hp hsub hc
  refine ⟨hround, ⟨hundisturbed, fun hlast => ?_, hbus.trans h.bus, ?_, ?_, ?_, ?_, fun _ =>
    ⟨?_, ?_, hsub⟩⟩⟩
  · rw [hround.pc, decide_eq_true hlast, h.pc hi]
    rfl
  · rw [hregs, Registers.searchRound_a, Registers.extended_a, h.a]
  · rw [hregs, Registers.searchRound_hl, Registers.extended_hl, h.hl, Direction.ahead_succ]
  · rw [hregs, Registers.searchRound_bc, Registers.extended_bc, hcount]
  · rw [hc, Registers.extended_f, h.carry]
  · rw [hz, Registers.extended_a, h.bus, h.hl, h.a, Nat.add_sub_cancel]
  · rw [hp, Registers.extended_bc, hcount]

/-- A repeating search. It takes as many rounds as there are bytes up to the
first one that is equal to the accumulator, or else as many as its counter
allows. -/
theorem search_passes (hm : m.cpu.Undisturbed)
    (hbytes : Holds m.bus.peek m.cpu.regs.pc [0xED, Opcode.repeating .search dir]) :
    ∃ n, IsLeast (m.hits dir) n ∧ m.Passes n ∧
      let done := next^[n] m
      done.bus = m.bus ∧ done.cpu.regs.a = m.cpu.regs.a ∧
      done.cpu.regs.hl = dir.ahead n m.cpu.regs.hl ∧
      done.cpu.regs.bc = BitVec.ofNat 16 (m.cpu.regs.bc.rounds - n) ∧
      (done.cpu.regs.f.z ↔ m.bus.peek (dir.ahead (n - 1) m.cpu.regs.hl) = m.cpu.regs.a) ∧
      (done.cpu.regs.f.p ↔ done.cpu.regs.bc ≠ 0) ∧
      done.cpu.regs.f.n = true ∧ done.cpu.regs.f.c = m.cpu.regs.f.c := by
  obtain ⟨n, hn⟩ := exists_isLeast_hits dir m
  have hpos : 0 < n := hn.1.1
  obtain ⟨hpasses, hdone⟩ := passes_of_invariant hpos (Searched.start hm)
    fun i now hi h => h.next hn hi hbytes
  obtain ⟨hzero, hparity, hsub⟩ := hdone.flags hpos
  refine ⟨n, hn, hpasses, hdone.bus, hdone.a, hdone.hl, ?_, ?_, ?_, hsub, hdone.carry⟩
  · rw [hdone.bc, Word.sub_ofNat hn.1.2.1]
  · rw [hzero, beq_iff_eq]
  · rw [hparity, hdone.bc, bne_iff_ne]

/-- A search downwards for a byte that is met where the counter runs out. -/
theorem search_passes_downwards :
    let m : Machine Flat StateLatch :=
      ⟨{ regs := { a := 0x55, b := 0, c := 2, h := 0, l := 3 } },
        Flat.load 0 [0xED, 0xB9, 0x55, 0x66] {}⟩
    m.cpu.Undisturbed ∧ Holds m.bus.peek m.cpu.regs.pc [0xED, Opcode.repeating .search .down] ∧
    ∃ n, IsLeast (m.hits .down) n ∧ m.Passes n ∧ (next^[n] m).bus = m.bus ∧
      ((next^[n] m).cpu.regs.f.z ↔
        m.bus.peek (Direction.down.ahead (n - 1) m.cpu.regs.hl) = 0x55) := by
  intro m
  have hm : m.cpu.Undisturbed := ⟨rfl, rfl⟩
  have hbytes : Holds m.bus.peek m.cpu.regs.pc [0xED, Opcode.repeating .search .down] := by
    decide +kernel
  obtain ⟨n, hn, hpasses, hbus, -, -, -, hz, -⟩ := search_passes hm hbytes
  exact ⟨hm, hbytes, n, hn, hpasses, hbus, hz⟩

end Machine
end Z80
