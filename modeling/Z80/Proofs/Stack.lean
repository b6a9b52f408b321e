import Z80.Proofs.Service

/-!
The stack as a whole. Words are pushed downwards and wrap at the bottom of
memory, and so many pops give them back in the reverse order, as long as the
words fit into memory.
-/
namespace Z80

open Bus (Flat)

variable {σ δ : Type}

namespace Word

/-- The addresses of so many bytes below the top of the stack. -/
def below (sp : Word) (n : Nat) : List Word :=
  (List.range n).map fun i => sp - BitVec.ofNat 16 (i + 1)

/-- The bytes of words as they lie in memory, each word with its low byte first. -/
def bytes : List Word → List Byte
  | [] => []
  | w :: rest => w.low :: w.high :: bytes rest

theorem length_bytes (ws : List Word) : (bytes ws).length = 2 * ws.length := by
  induction ws with
  | nil => rfl
  | cons w rest ih =>
      simp only [bytes, List.length_cons, ih]
      omega

theorem mem_below {sp x : Word} {n : Nat} :
    x ∈ sp.below n ↔ ∃ i < n, sp - BitVec.ofNat 16 (i + 1) = x := by
  simp only [below, List.mem_map, List.mem_range]

theorem below_two (sp : Word) : sp.below 2 = sp.saved := rfl

theorem below_mono {sp x : Word} {n k : Nat} (h : n ≤ k) (hx : x ∈ sp.below n) :
    x ∈ sp.below k := by
  obtain ⟨i, hi, rfl⟩ := mem_below.mp hx
  exact mem_below.mpr ⟨i, Nat.lt_of_lt_of_le hi h, rfl⟩

theorem sub_ofNat_add (w : Word) (n k : Nat) :
    w - BitVec.ofNat 16 (n + k) = w - BitVec.ofNat 16 n - BitVec.ofNat 16 k := by
  rw [BitVec.ofNat_add]
  grind

theorem add_add_ofNat (w : Word) (n k : Nat) :
    w + BitVec.ofNat 16 n + BitVec.ofNat 16 k = w + BitVec.ofNat 16 (n + k) := by
  rw [BitVec.add_assoc, BitVec.ofNat_add]

theorem below_sub {sp x : Word} {n k : Nat} (hx : x ∈ (sp - BitVec.ofNat 16 k).below n) :
    x ∈ sp.below (k + n) := by
  obtain ⟨i, hi, rfl⟩ := mem_below.mp hx
  refine mem_below.mpr ⟨k + i, by omega, ?_⟩
  rw [Nat.add_assoc, sub_ofNat_add]

/-- Bytes above the top of the stack are not those below it, as long as they do not
go around the memory. -/
theorem add_ofNat_not_mem_below {sp : Word} {i n : Nat} (h : i + n < 0x10000) :
    sp + BitVec.ofNat 16 i ∉ sp.below n := by
  intro hmem
  obtain ⟨k, hk, heq⟩ := mem_below.mp hmem
  have hsum : BitVec.ofNat 16 (i + (k + 1)) = 0 := by
    rw [BitVec.ofNat_add]
    grind
  have hval := congrArg BitVec.toNat hsum
  simp only [BitVec.toNat_ofNat, Nat.reducePow] at hval
  rw [Nat.mod_eq_of_lt (by omega)] at hval
  exact absurd hval (Nat.succ_ne_zero _)

end Word

theorem holds_pair {memory : Word → Byte} {a w : Word} {rest : List Byte}
    (h : Holds memory a (w.low :: w.high :: rest)) :
    Word.ofBytes (memory (a + 1)) (memory a) = w ∧ Holds memory (a + 2) rest := by
  obtain ⟨hlow, hhigh, hrest⟩ := h
  rw [Word.add_one_one] at hrest
  exact ⟨by rw [hlow, hhigh, Word.ofBytes_high_low], hrest⟩

theorem holds_of_pair {memory : Word → Byte} {a w : Word} {rest : List Byte}
    (h : Word.ofBytes (memory (a + 1)) (memory a) = w) (hrest : Holds memory (a + 2) rest) :
    Holds memory a (w.low :: w.high :: rest) := by
  rw [← Word.add_one_one] at hrest
  refine ⟨?_, ?_, hrest⟩
  · rw [← h, Word.low_ofBytes]
  · rw [← h, Word.high_ofBytes]

namespace Bus.Flat

/-- The bus with words saved on the stack, the first of them on top of it. -/
def saveAll (sp : Word) : List Word → Flat → Flat
  | [], b => b
  | w :: rest, b => saveAll (sp - 2) rest (b.save sp w)

variable (b : Flat) (sp : Word) (ws : List Word)

theorem saveAll_spaces : (b.saveAll sp ws).io = b.io ∧ (b.saveAll sp ws).irqData = b.irqData := by
  induction ws generalizing sp b with
  | nil => exact ⟨rfl, rfl⟩
  | cons w rest ih => exact ih (b.save sp w) (sp - 2)

theorem peek_saveAll_of_not_mem {x : Word} (h : x ∉ sp.below (2 * ws.length)) :
    (b.saveAll sp ws).peek x = b.peek x := by
  induction ws generalizing sp b with
  | nil => rfl
  | cons w rest ih =>
      rw [List.length_cons, Nat.mul_succ, Nat.add_comm] at h
      have hrest : (b.saveAll sp (w :: rest)).peek x = (b.save sp w).peek x :=
        ih (b.save sp w) (sp - 2) fun hx => h (Word.below_sub hx)
      rw [hrest]
      exact peek_save_of_not_mem b sp w fun hx => h (Word.below_mono (Nat.le_add_right ..) hx)

/-- A saved word lies below what was above the top of the stack before, if there is
room for it. -/
theorem holds_save {bytes : List Byte} (w : Word) (hroom : bytes.length + 2 ≤ 0x10000)
    (h : Holds b.peek sp bytes) :
    Holds (b.save sp w).peek (sp - 2) (w.low :: w.high :: bytes) := by
  refine holds_of_pair (word_save b sp w) ?_
  rw [BitVec.sub_add_cancel]
  refine h.of_eq fun i hi => peek_save_of_not_mem b sp w ?_
  rw [← Word.below_two]
  exact Word.add_ofNat_not_mem_below (by omega)

/-- The words that were saved lie one above the other, the last one lowest, and
below those that were there before. -/
theorem holds_saveAll (above : List Word)
    (hroom : ws.length + above.length ≤ 0x8000) (h : Holds b.peek sp (Word.bytes above)) :
    Holds (b.saveAll sp ws).peek (sp - BitVec.ofNat 16 (2 * ws.length))
      (Word.bytes (ws.reverse ++ above)) := by
  induction ws generalizing sp b above with
  | nil =>
      have hsp : sp - BitVec.ofNat 16 0 = sp := BitVec.sub_zero sp
      rw [List.length_nil, Nat.mul_zero, hsp]
      exact h
  | cons w rest ih =>
      rw [List.length_cons] at hroom
      have hbytes : (Word.bytes above).length + 2 ≤ 0x10000 := by
        rw [Word.length_bytes]
        omega
      have hsaved := ih (b.save sp w) (sp - 2) (w :: above) (by rw [List.length_cons]; omega)
        (holds_save b sp w hbytes h)
      rw [List.length_cons, Nat.mul_succ, Nat.add_comm, Word.sub_ofNat_add, List.reverse_cons,
        List.append_assoc]
      exact hsaved

end Bus.Flat

namespace Registers

/-- The registers with so many more bytes on the stack. -/
def grown (n : Nat) (r : Registers) : Registers :=
  { r with sp := r.sp - BitVec.ofNat 16 n }

/-- The registers with so many bytes off the stack. -/
def shrunk (n : Nat) (r : Registers) : Registers :=
  { r with sp := r.sp + BitVec.ofNat 16 n }

variable (n k : Nat) (r : Registers)

theorem grown_zero : r.grown 0 = r := by
  simp only [grown, BitVec.sub_zero]

theorem grown_grown : (r.grown n).grown k = r.grown (n + k) := by
  simp only [grown, Word.sub_ofNat_add]

theorem shrunk_zero : r.shrunk 0 = r := by
  simp only [shrunk, BitVec.add_zero]

theorem shrunk_shrunk : (r.shrunk n).shrunk k = r.shrunk (n + k) := by
  simp only [shrunk, Word.add_add_ofNat]

theorem shrunk_grown : (r.grown n).shrunk n = r := by
  simp only [shrunk, grown, BitVec.sub_add_cancel]

end Registers

namespace Exec

def pushAll [Bus σ] : List Word → Exec σ δ Unit
  | [] => pure ()
  | w :: rest => do
      push w
      pushAll rest

/-- So many pops, and what they gave, oldest first. -/
def popAll [Bus σ] : Nat → Exec σ δ (List Word)
  | 0 => pure []
  | n + 1 => do
      let w ← pop
      return w :: (← popAll n)

theorem push_flat (w : Word) (m : Machine Flat δ) :
    push w m = ((), ⟨m.cpu.modifyRegs (Registers.grown 2), m.bus.save m.cpu.regs.sp w⟩) := rfl

theorem pop_flat (m : Machine Flat δ) :
    pop m = (m.bus.word m.cpu.regs.sp, m.onRegs (Registers.shrunk 2)) := rfl

theorem pushAll_flat (ws : List Word) (m : Machine Flat δ) :
    pushAll ws m =
      ((), ⟨m.cpu.modifyRegs (Registers.grown (2 * ws.length)),
        m.bus.saveAll m.cpu.regs.sp ws⟩) := by
  induction ws generalizing m with
  | nil =>
      simp only [pushAll, pure_apply, List.length_nil, Nat.mul_zero, Cpu.modifyRegs,
        Registers.grown_zero]
      rfl
  | cons w rest ih =>
      rw [pushAll, bind_apply, push_flat, ih, List.length_cons, Nat.mul_succ, Nat.add_comm]
      simp only [Cpu.modifyRegs, Registers.grown_grown]
      rfl

/-- So many pops give the words that lie from the top of the stack on. -/
theorem popAll_of_holds {ws : List Word} {m : Machine Flat δ}
    (h : Holds m.bus.peek m.cpu.regs.sp (Word.bytes ws)) :
    popAll ws.length m = (ws, m.onRegs (Registers.shrunk (2 * ws.length))) := by
  induction ws generalizing m with
  | nil =>
      have hzero : Registers.shrunk 0 = id := funext Registers.shrunk_zero
      rw [List.length_nil, Nat.mul_zero, hzero]
      rfl
  | cons w rest ih =>
      obtain ⟨hword, hrest⟩ := holds_pair h
      have hshrunk : Registers.shrunk (2 * rest.length) ∘ Registers.shrunk 2 =
          Registers.shrunk (2 * (rest.length + 1)) := by
        funext r
        exact (Registers.shrunk_shrunk 2 _ r).trans (by rw [Nat.mul_succ, Nat.add_comm])
      have htail := ih (m := m.onRegs (Registers.shrunk 2)) hrest
      rw [Machine.onRegs_onRegs, hshrunk] at htail
      rw [List.length_cons, popAll, bind_apply, bind_apply, pop_flat, htail]
      simp only [pure_apply, Flat.word, hword]

/-- The stack gives back last what it took first, up to its full capacity. The
words lie below the old top, each with its low byte first; nothing else changes. -/
theorem popAll_pushAll {ws : List Word} (m : Machine Flat δ) (hws : ws.length ≤ 0x8000) :
    let pushed := (pushAll ws m).2
    let popped := popAll ws.length pushed
    popped.1 = ws.reverse ∧ popped.2.cpu = m.cpu ∧
      (∀ x ∉ m.cpu.regs.sp.below (2 * ws.length), popped.2.bus.peek x = m.bus.peek x) ∧
      popped.2.bus.io = m.bus.io ∧ popped.2.bus.irqData = m.bus.irqData ∧
      popped.2.bus = pushed.bus ∧
      pushed.cpu = m.cpu.modifyRegs (Registers.grown (2 * ws.length)) ∧
      Holds pushed.bus.peek pushed.cpu.regs.sp (Word.bytes ws.reverse) ∧
      ∀ w ∈ ws.getLast?, (read16 pushed.cpu.regs.sp pushed).1 = w := by
  intro pushed popped
  have hpushed : pushed = ⟨m.cpu.modifyRegs (Registers.grown (2 * ws.length)),
      m.bus.saveAll m.cpu.regs.sp ws⟩ := congrArg Prod.snd (pushAll_flat ws m)
  have hbus : pushed.bus = m.bus.saveAll m.cpu.regs.sp ws := by
    rw [hpushed]
  have hholds : Holds pushed.bus.peek pushed.cpu.regs.sp (Word.bytes ws.reverse) := by
    have hall := Flat.holds_saveAll m.bus m.cpu.regs.sp ws [] hws trivial
    rw [List.append_nil] at hall
    rw [hpushed]
    exact hall
  have hpopped : popped = (ws.reverse, pushed.onRegs (Registers.shrunk (2 * ws.length))) := by
    have hall := popAll_of_holds hholds
    rwa [List.length_reverse] at hall
  have hback : popped.2.cpu = m.cpu := by
    rw [hpopped, hpushed]
    exact congrArg (fun r => { m.cpu with regs := r }) (Registers.shrunk_grown _ _)
  have hkept : popped.2.bus = pushed.bus := by
    rw [hpopped, Machine.onRegs_bus]
  obtain ⟨hio, hirqData⟩ := Flat.saveAll_spaces m.bus m.cpu.regs.sp ws
  refine ⟨by rw [hpopped], hback, fun x hx => ?_, ?_, ?_, hkept, by rw [hpushed], hholds,
    fun w hw => ?_⟩
  · rw [hkept, hbus, Flat.peek_saveAll_of_not_mem m.bus m.cpu.regs.sp ws hx]
  · rw [hkept, hbus, hio]
  · rw [hkept, hbus, hirqData]
  · obtain ⟨rest, rfl⟩ := List.getLast?_eq_some_iff.mp hw
    rw [List.reverse_append, List.reverse_singleton, List.singleton_append] at hholds
    exact (holds_pair hholds).1

/-- Three words from an odd top of the stack down across the bottom of memory. -/
theorem popAll_pushAll_wrap :
    let ws : List Word := [0x1234, 0x5678, 0x9ABC]
    let m : Machine Flat Unit := ⟨{ regs := { sp := 3 } }, {}⟩
    let pushed := (pushAll ws m).2
    ws.length ≤ 0x8000 ∧ (popAll 3 pushed).1 = [0x9ABC, 0x5678, 0x1234] ∧
      (popAll 3 pushed).2.cpu.regs.sp = 3 ∧ pushed.cpu.regs.sp = 0xFFFD ∧
      Holds pushed.bus.peek 0xFFFD [0xBC, 0x9A, 0x78, 0x56, 0x34, 0x12] ∧
      pushed.bus.peek 3 = 0 ∧ (read16 0xFFFD pushed).1 = 0x9ABC := by
  intro ws m pushed
  have hws : ws.length ≤ 0x8000 := by decide
  obtain ⟨hwords, hcpu, hkept, -, -, hbus, hpushed, hholds, hlast⟩ := popAll_pushAll m hws
  have hsp : pushed.cpu.regs.sp = 0xFFFD := congrArg (fun cpu => cpu.regs.sp) hpushed
  have hthree := hkept 3 (by decide)
  refine ⟨hws, hwords, congrArg (fun cpu => cpu.regs.sp) hcpu, hsp, ?_, ?_, ?_⟩
  · rw [← hsp]
    exact hholds
  · rw [← hbus]
    exact hthree.trans (Memory.get_blank 3)
  · rw [← hsp]
    exact hlast _ rfl

end Exec
end Z80
