import Z80.Proofs.Boundary
import Z80.Proofs.Opcodes
import Z80.Proofs.Traces

/-!
What an instruction fetches. Its bytes stand one after the other from the
program counter on, opcodes first, and each is fetched once. The program
counter and the refresh register count the bytes as they are passed. Only a
prefix that stands in front of another one looks at a byte that it does not pass.
-/
namespace Z80

open Bus (Logged)

variable {σ δ α β : Type}

namespace Bus.Event

/-- The fetches of bytes from an address on. -/
def stream (event : Word → Byte → Bus.Event) (addr : Word) : List Byte → List Bus.Event
  | [] => []
  | v :: rest => event addr v :: stream event (addr + 1) rest

/-- The fetches of some opcodes and of the operands behind them. -/
def fetches (addr : Word) (opcodes operands : List Byte) : List Bus.Event :=
  stream .fetchOpcode addr opcodes ++
    stream .fetchOperand (addr + BitVec.ofNat 16 opcodes.length) operands

variable (addr : Word) (v : Byte) (opcodes operands : List Byte)

theorem isFetch_of_mem_stream {event : Word → Byte → Bus.Event}
    (hevent : ∀ a v, (event a v).isFetch) {addr : Word} {bytes : List Byte} {e : Bus.Event}
    (h : e ∈ stream event addr bytes) : e.isFetch := by
  induction bytes generalizing addr with
  | nil => cases h
  | cons v rest ih =>
      rcases List.mem_cons.mp h with rfl | h
      · exact hevent addr v
      · exact ih h

theorem isFetch_of_mem_fetches {e : Bus.Event} (h : e ∈ fetches addr opcodes operands) :
    e.isFetch := by
  rcases List.mem_append.mp h with h | h
  · exact isFetch_of_mem_stream (fun _ _ => rfl) h
  · exact isFetch_of_mem_stream (fun _ _ => rfl) h

/-- The opcode that is fetched, if one is. -/
def opcode? : Bus.Event → Option Byte
  | .fetchOpcode _ v => some v
  | _ => none

theorem opcode?_eq_none {e : Bus.Event} (h : e.isFetch = false) : e.opcode? = none := by
  cases e with
  | fetchOpcode _ _ => cases h
  | _ => rfl

theorem filterMap_opcode?_stream (addr : Word) (bytes : List Byte) :
    (stream .fetchOpcode addr bytes).filterMap opcode? = bytes ∧
      (stream .fetchOperand addr bytes).filterMap opcode? = [] := by
  induction bytes generalizing addr with
  | nil => exact ⟨rfl, rfl⟩
  | cons v rest ih =>
      obtain ⟨hopcodes, hoperands⟩ := ih (addr + 1)
      exact ⟨congrArg (List.cons v) hopcodes, hoperands⟩

/-- The opcodes stay when the operands are left out, and what is no fetch. -/
theorem filterMap_opcode?_fetches {data : List Bus.Event} (h : ∀ e ∈ data, e.isFetch = false) :
    (fetches addr opcodes operands ++ data).filterMap opcode? = opcodes := by
  have hdata : data.filterMap opcode? = [] :=
    List.filterMap_eq_nil_iff.mpr fun e he => opcode?_eq_none (h e he)
  rw [fetches, List.filterMap_append, List.filterMap_append, hdata,
    (filterMap_opcode?_stream _ _).1, (filterMap_opcode?_stream _ _).2, List.append_nil,
    List.append_nil]

theorem fetches_nil : fetches addr [] [] = [] := rfl

theorem fetches_opcode :
    fetches addr (v :: opcodes) operands =
      .fetchOpcode addr v :: fetches (addr + 1) opcodes operands := by
  rw [fetches, fetches, List.length_cons, ← Word.add_one_ofNat]
  rfl

theorem fetches_operand :
    fetches addr [] (v :: operands) = .fetchOperand addr v :: fetches (addr + 1) [] operands := by
  simp only [fetches, stream, List.length_nil, BitVec.ofNat_eq_ofNat, BitVec.add_zero,
    List.nil_append]

end Bus.Event

/-- How many of the opcodes of an instruction are passed. The second of two
prefixes starts the next instruction. -/
def Opcode.passed (opcodes : List Byte) : Nat :=
  if opcodes.length = 2 ∧ ∀ code ∈ opcodes, code ∈ prefixes then 1 else opcodes.length

/-- Opcodes and operands spell an operation, and so many of the opcodes are
passed. -/
inductive Reads : (passed : Nat) → (opcodes operands : List Byte) → Operation → Prop
  | main {op : Byte} {operands : List Byte} {form : Form} {a b : Byte} :
    Opcode.decode .hl op = .instr form → Reads 1 [op] operands ⟨false, form.fill a b⟩
  | bits (op : Byte) : Reads 2 [0xCB, op] [] ⟨false, .ofBits op⟩
  | extended {op : Byte} {operands : List Byte} {a b : Byte} :
    Reads 2 [0xED, op] operands ⟨false, (Form.ofExtended op).fill a b⟩
  | superseded {first second : Byte} : first ∈ Opcode.prefixes → second ∈ Opcode.prefixes →
    Reads 1 [first, second] [] ⟨false, .nop⟩
  | indexed {first op : Byte} {operands : List Byte} {p : Pointer} {form : Form} {a b : Byte} :
    Opcode.Indexes first p → Opcode.decode p op = .instr form →
      Reads 2 [first, op] operands ⟨true, form.fill a b⟩
  | indexedBits {first : Byte} {p : Pointer} {d op : Byte} :
    Opcode.Indexes first p → Reads 2 [first, 0xCB] [d, op] ⟨true, .ofIndexedBits p d op⟩
  | indexedExtended {first op : Byte} {operands : List Byte} {p : Pointer} {a b : Byte} :
    Opcode.Indexes first p →
      Reads 3 [first, 0xED, op] operands ⟨true, (Form.ofExtended op).fill a b⟩

theorem Instr.ne_of_page {i j : Instr} {page : Page} (hi : i.page = page) (hj : j.page ≠ page) :
    i ≠ j := by
  rintro rfl
  exact hj hi

theorem Opcode.ne_of_mem_prefixes {code : Byte} (h : code ∈ prefixes) : 0xED ≠ code := by
  rintro rfl
  exact absurd h (by decide)

theorem Opcode.not_mem_prefixes {p : Pointer} {code : Byte} {form : Form}
    (h : decode p code = .instr form) : code ∉ prefixes := by
  intro hmem
  obtain ⟨q, hq⟩ := exists_indexes hmem
  cases hq.decode.symm.trans h

theorem pair_suffix_pair {a b c d : Byte} : [a, b] <:+ [c, d] ↔ a = c ∧ b = d := by
  simp [List.suffix_cons_iff]

theorem pair_suffix_triple {a b c d e : Byte} : [a, b] <:+ [c, d, e] ↔ a = d ∧ b = e := by
  simp [List.suffix_cons_iff]

namespace Reads

variable {n : Nat} {opcodes operands : List Byte} {op : Operation}

theorem length_bounds (h : Reads n opcodes operands op) :
    1 ≤ opcodes.length ∧ opcodes.length ≤ 3 := by
  cases h <;> simp

theorem opcodes_eq (h : Reads n opcodes operands op) : op.opcodes = n := by
  cases h with
  | superseded _ _ | indexedBits _ => rfl
  | main hform | indexed _ hform =>
      rw [Operation.opcodes, Form.page_decode _ _ hform]
      rfl
  | bits _ => rw [Operation.opcodes, Instr.page_ofBits]
  | extended | indexedExtended _ =>
      rw [Operation.opcodes, Form.page_ofExtended]
      rfl

theorem passed_eq (h : Reads n opcodes operands op) : Opcode.passed opcodes = n := by
  cases h with
  | superseded hfirst hsecond => simp [Opcode.passed, hfirst, hsecond]
  | indexed _ hform => simp [Opcode.passed, Opcode.not_mem_prefixes hform]
  | main _ | indexedExtended _ => rfl
  | bits _ | extended | indexedBits _ => simp [Opcode.passed, Opcode.prefixes]

/-- An instruction of the extended page without operand bytes is told by its code
there, behind an index prefix as well. -/
theorem eq_iff_of_isBare (h : Reads n opcodes operands op) {i : Instr} (hi : i.IsBare)
    (hpage : i.page = .extended) :
    op.instr = i ↔ ∃ code, (Form.ofExtended code).sample = i ∧ [0xED, code] <:+ opcodes := by
  have hother {j : Instr} (hj : j.page ≠ .extended)
      (hopcodes : ∀ code : Byte, ¬[0xED, code] <:+ opcodes) :
      j = i ↔ ∃ code, (Form.ofExtended code).sample = i ∧ [0xED, code] <:+ opcodes :=
    iff_of_false (Instr.ne_of_page hpage hj).symm fun ⟨code, _, hcode⟩ => hopcodes code hcode
  cases h with
  | main hform =>
      refine hother (by rw [Form.page_decode _ _ hform]; exact nofun) fun code hcode => ?_
      exact absurd hcode.length_le (by simp)
  | bits op =>
      refine hother (by rw [Instr.page_ofBits]; exact nofun) fun code hcode => ?_
      exact absurd (pair_suffix_pair.mp hcode).1 (by decide)
  | extended =>
      rw [Form.fill_ofExtended_eq_iff _ _ hi]
      simp only [pair_suffix_pair, true_and, exists_eq_right]
  | superseded hfirst _ =>
      refine hother nofun fun code hcode => ?_
      exact Opcode.ne_of_mem_prefixes hfirst (pair_suffix_pair.mp hcode).1
  | indexed hfirst hform =>
      refine hother (by rw [Form.page_decode _ _ hform]; exact nofun) fun code hcode => ?_
      exact Opcode.ne_of_mem_prefixes hfirst.mem_prefixes (pair_suffix_pair.mp hcode).1
  | indexedBits hfirst =>
      refine hother nofun fun code hcode => ?_
      exact Opcode.ne_of_mem_prefixes hfirst.mem_prefixes (pair_suffix_pair.mp hcode).1
  | indexedExtended _ =>
      rw [Form.fill_ofExtended_eq_iff _ _ hi]
      simp only [pair_suffix_triple, true_and, exists_eq_right]

/-- Two opcodes alone load the refresh counter, behind an index prefix as well. -/
theorem loads_refresh_iff (h : Reads n opcodes operands op) :
    op.instr = .ldSystem .r ↔ [0xED, 0x4F] <:+ opcodes := by
  rw [h.eq_iff_of_isBare (Instr.isBare_ldSystem .r) rfl]
  simp only [Form.sample_ofExtended_eq_ldSystem_iff, exists_eq_left]

/-- Two opcodes alone return with word to the chain, behind an index prefix as well. -/
theorem returns_iff (h : Reads n opcodes operands op) :
    op.instr = .reti ↔ [0xED, 0x4D] <:+ opcodes := by
  rw [h.eq_iff_of_isBare Instr.isBare_reti rfl]
  simp only [Form.sample_ofExtended_eq_reti_iff, exists_eq_left]

end Reads

namespace Registers

/-- The registers behind some opcodes and operands. -/
def streamed (opcodes operands : Nat) (r : Registers) : Registers :=
  { refresh opcodes r with pc := r.pc + BitVec.ofNat 16 (opcodes + operands) }

theorem streamed_zero (r : Registers) : r.streamed 0 0 = r := by
  simp only [streamed, refresh_zero, Nat.add_zero, BitVec.add_zero]

theorem streamed_passed (n k : Nat) (r : Registers) :
    r.passed.streamed n k = r.streamed (n + 1) k := by
  have hr := congrArg Registers.r (refresh_refresh 1 n r)
  have hpc : r.pc + 1 + BitVec.ofNat 16 (n + k) = r.pc + BitVec.ofNat 16 (n + 1 + k) := by
    rw [Word.add_one_ofNat, Nat.add_right_comm]
  rw [Nat.add_comm 1 n] at hr
  simp only [refresh] at hr
  simp only [streamed, passed, refresh, hr, hpc]

theorem streamed_skipped (k : Nat) (r : Registers) :
    (r.skipped 1).streamed 0 k = r.streamed 0 (k + 1) := by
  have hpc : r.pc + BitVec.ofNat 16 1 + BitVec.ofNat 16 (0 + k) =
      r.pc + BitVec.ofNat 16 (0 + (k + 1)) := by
    rw [BitVec.add_assoc, ← BitVec.ofNat_add, Nat.add_comm 1, Nat.add_assoc]
  simp only [streamed, refresh_zero, skipped, hpc]

end Registers

namespace Exec

/-- From a machine on, the one action fetches the same bytes on the tracing
bus that the other fetches on the bus itself, does nothing else and gives a value
with a property. -/
structure Streams (passed : Nat) (opcodes operands : List Byte) (P : α → Prop)
    (x : Exec (Logged σ) δ α) (y : Exec σ δ α) (m : Machine σ δ) : Prop where
  trace (events : Array Bus.Event) : x (m.traced events) =
    ((y m).1, (y m).2.traced
      (events ++ (Bus.Event.fetches m.cpu.regs.pc opcodes operands).toArray))
  cpu : (y m).2.cpu = m.cpu.modifyRegs (Registers.streamed passed operands.length)
  value : P (y m).1

variable {n : Nat} {opcodes operands : List Byte} {P : α → Prop} {m : Machine σ δ}

theorem Streams.pure {v : α} (h : P v) :
    Streams 0 [] [] P (pure v : Exec (Logged σ) δ α) (pure v : Exec σ δ α) m where
  trace events := by
    rw [pure_apply, pure_apply, Bus.Event.fetches_nil]
    exact congrArg (fun log => (v, m.traced log)) Array.append_empty.symm
  cpu := by
    simp only [pure_apply, Cpu.modifyRegs, List.length_nil, Registers.streamed_zero]
  value := h

theorem Streams.map {Q : β → Prop} {x : Exec (Logged σ) δ α} {y : Exec σ δ α} (f : α → β)
    (h : Streams n opcodes operands P x y m) (hf : ∀ v, P v → Q (f v)) :
    Streams n opcodes operands Q (x >>= fun v => Pure.pure (f v))
      (y >>= fun v => Pure.pure (f v)) m where
  trace events := by rw [bind_apply, bind_apply, pure_apply, pure_apply, h.trace]
  cpu := by rw [bind_apply, pure_apply, h.cpu]
  value := hf _ h.value

theorem push_append_toArray (events : Array Bus.Event) (e : Bus.Event) (rest : List Bus.Event) :
    events.push e ++ rest.toArray = events ++ (e :: rest).toArray := by
  rw [List.toArray_cons, Array.push_eq_append, Array.append_assoc]

variable [Bus σ]

theorem fetchOpcode_traced (m : Machine σ δ) (events : Array Bus.Event) :
    fetchOpcode (m.traced events) = ((fetchOpcode m).1, (fetchOpcode m).2.traced
      (events.push (.fetchOpcode m.cpu.regs.pc (fetchOpcode m).1))) := rfl

theorem fetchOpcode_cpu (m : Machine σ δ) :
    (fetchOpcode m).2.cpu = m.cpu.modifyRegs Registers.passed := rfl

theorem fetchOperand_traced (m : Machine σ δ) (events : Array Bus.Event) :
    fetchOperand (m.traced events) = ((fetchOperand m).1, (fetchOperand m).2.traced
      (events.push (.fetchOperand m.cpu.regs.pc (fetchOperand m).1))) := rfl

theorem fetchOperand_cpu (m : Machine σ δ) :
    (fetchOperand m).2.cpu = m.cpu.modifyRegs (Registers.skipped 1) := rfl

theorem Streams.opcode {g : Byte → Exec (Logged σ) δ α} {k : Byte → Exec σ δ α}
    (h : Streams n opcodes operands P (g (fetchOpcode m).1) (k (fetchOpcode m).1)
      (fetchOpcode m).2) :
    Streams (n + 1) ((fetchOpcode m).1 :: opcodes) operands P (fetchOpcode >>= g)
      (fetchOpcode >>= k) m where
  trace events := by
    have hpc : (fetchOpcode m).2.cpu.regs.pc = m.cpu.regs.pc + 1 := by
      rw [fetchOpcode_cpu]
      rfl
    rw [bind_apply, bind_apply, fetchOpcode_traced, h.trace, hpc, push_append_toArray,
      ← Bus.Event.fetches_opcode]
  cpu := by
    rw [bind_apply, h.cpu, fetchOpcode_cpu]
    simp only [Cpu.modifyRegs, Registers.streamed_passed]
  value := h.value

/-- An opcode that tells how to go on. -/
theorem Streams.decoded {g : Byte → Exec (Logged σ) δ α} {k : Byte → Exec σ δ α}
    {x : Exec (Logged σ) δ α} {y : Exec σ δ α} (hg : g (fetchOpcode m).1 = x)
    (hk : k (fetchOpcode m).1 = y)
    (h : Streams n opcodes operands P x y (fetchOpcode m).2) :
    Streams (n + 1) ((fetchOpcode m).1 :: opcodes) operands P (fetchOpcode >>= g)
      (fetchOpcode >>= k) m :=
  .opcode (by rwa [hg, hk])

theorem Streams.operand {g : Byte → Exec (Logged σ) δ α} {k : Byte → Exec σ δ α}
    (h : Streams 0 [] operands P (g (fetchOperand m).1) (k (fetchOperand m).1)
      (fetchOperand m).2) :
    Streams 0 [] ((fetchOperand m).1 :: operands) P (fetchOperand >>= g)
      (fetchOperand >>= k) m where
  trace events := by
    have hpc : (fetchOperand m).2.cpu.regs.pc = m.cpu.regs.pc + 1 := by
      rw [fetchOperand_cpu]
      rfl
    rw [bind_apply, bind_apply, fetchOperand_traced, h.trace, hpc, push_append_toArray,
      ← Bus.Event.fetches_operand]
  cpu := by
    rw [bind_apply, h.cpu, fetchOperand_cpu]
    simp only [Cpu.modifyRegs, Registers.streamed_skipped, List.length_cons]
  value := h.value

theorem streams_fetchOpcode :
    Streams 1 [(fetchOpcode m).1] [] (fun v => v = (fetchOpcode m).1) fetchOpcode fetchOpcode m :=
  .opcode (g := Pure.pure) (k := Pure.pure) (.pure rfl)

theorem streams_fetchOperand :
    Streams 0 [] [(fetchOperand m).1] (fun v => v = (fetchOperand m).1) fetchOperand
      fetchOperand m :=
  .operand (g := Pure.pure) (k := Pure.pure) (.pure rfl)

/-- An opcode that is only looked at. -/
theorem Streams.peek {g : Byte → Exec (Logged σ) δ α} {k : Byte → Exec σ δ α} {v : α}
    (hg : g (peekOpcode m).1 = Pure.pure v) (hk : k (peekOpcode m).1 = Pure.pure v) (h : P v) :
    Streams 0 [(peekOpcode m).1] [] P (peekOpcode >>= g) (peekOpcode >>= k) m where
  trace events := by
    have htraced : peekOpcode (m.traced events) = ((peekOpcode m).1, (peekOpcode m).2.traced
      (events.push (.fetchOpcode m.cpu.regs.pc (peekOpcode m).1))) := rfl
    rw [bind_apply, bind_apply, htraced, hg, hk]
    rfl
  cpu := by
    rw [bind_apply, hk]
    simp only [pure_apply, Cpu.modifyRegs, List.length_nil, Registers.streamed_zero]
    rfl
  value := by
    rw [bind_apply, hk]
    exact h

/-- An opcode that is looked at first and then passed. -/
theorem Streams.pass {g : Byte → Exec (Logged σ) δ α} {k : Byte → Exec σ δ α}
    {x : Exec (Logged σ) δ α} {y : Exec σ δ α}
    (hg : g (peekOpcode m).1 = passOpcode >>= fun _ => x)
    (hk : k (peekOpcode m).1 = passOpcode >>= fun _ => y)
    (h : Streams n opcodes operands P x y (fetchOpcode m).2) :
    Streams (n + 1) ((peekOpcode m).1 :: opcodes) operands P (peekOpcode >>= g)
      (peekOpcode >>= k) m := by
  have hfetch := Streams.opcode (m := m) (g := fun _ => x) (k := fun _ => y) h
  have hbind : (peekOpcode >>= k) m = (fetchOpcode >>= fun _ => y) m := by
    rw [bind_apply, hk]
    rfl
  have htraced (events : Array Bus.Event) : (peekOpcode >>= g) (m.traced events) =
      (fetchOpcode >>= fun _ => x) (m.traced events) := by
    have hpeek : (peekOpcode (m.traced events)).1 = (peekOpcode m).1 := rfl
    rw [bind_apply, hpeek, hg]
    rfl
  exact ⟨fun events => by rw [htraced, hbind]; exact hfetch.trace events,
    by rw [hbind]; exact hfetch.cpu, by rw [hbind]; exact hfetch.value⟩

theorem exists_streams_fetchForm (form : Form) (m : Machine σ δ) : ∃ operands,
    Streams 0 [] operands (fun i => ∃ first second, form.fill first second = i)
      (fetchForm form) (fetchForm form) m := by
  cases form with
  | fixed i => exact ⟨_, .pure ⟨0, 0, rfl⟩⟩
  | byte make => exact ⟨_, .operand (.pure ⟨_, 0, rfl⟩)⟩
  | word make => exact ⟨_, .operand (.operand (.pure ⟨_, _, rfl⟩))⟩

theorem exists_streams_fetchIndexed {first : Byte} {p : Pointer}
    (hfirst : Opcode.Indexes first p) (m : Machine σ δ) : ∃ n opcodes operands,
    Streams n opcodes operands (Reads (n + 1) (first :: opcodes) operands)
      (fetchIndexed p) (fetchIndexed p) m := by
  cases hop : Opcode.decode p (peekOpcode m).1 with
  | index q =>
      have hsecond := (Opcode.indexes_of_decode hop).mem_prefixes
      refine ⟨_, _, _, .peek ?_ ?_ (.superseded hfirst.mem_prefixes hsecond)⟩
      · rw [hop]
      · rw [hop]
  | instr form =>
      obtain ⟨operands, h⟩ := exists_streams_fetchForm form (fetchOpcode m).2
      refine ⟨_, _, operands, .pass (by rw [hop]) (by rw [hop]) (h.map _ ?_)⟩
      rintro i ⟨a, b, rfl⟩
      exact .indexed hfirst hop
  | bits =>
      have hcode : (peekOpcode m).1 = 0xCB := Opcode.eq_of_pageCode? (congrArg _ hop)
      refine ⟨_, _, _, .pass (by rw [hop]) (by rw [hop]) (.operand (streams_fetchOperand.map _ ?_))⟩
      rintro _ rfl
      rw [hcode]
      exact .indexedBits hfirst
  | extended =>
      have hcode : (peekOpcode m).1 = 0xED := Opcode.eq_of_pageCode? (congrArg _ hop)
      obtain ⟨operands, h⟩ := exists_streams_fetchForm
        (Form.ofExtended (fetchOpcode (fetchOpcode m).2).1) (fetchOpcode (fetchOpcode m).2).2
      refine ⟨_, _, operands, .pass (by rw [hop]) (by rw [hop]) (.opcode (h.map _ ?_))⟩
      rintro i ⟨a, b, rfl⟩
      rw [hcode]
      exact .indexedExtended hfirst

/-- A fetch reads the bytes of its operation and nothing else. -/
theorem exists_streams_fetch (m : Machine σ δ) : ∃ n opcodes operands,
    Streams n opcodes operands (Reads n opcodes operands) fetch fetch m := by
  cases hop : Opcode.decode .hl (fetchOpcode m).1 with
  | index p =>
      obtain ⟨n, opcodes, operands, h⟩ := exists_streams_fetchIndexed
        (Opcode.indexes_of_decode hop) (fetchOpcode m).2
      exact ⟨_, _, operands, .decoded (by rw [hop]) (by rw [hop]) h⟩
  | instr form =>
      obtain ⟨operands, h⟩ := exists_streams_fetchForm form (fetchOpcode m).2
      refine ⟨_, _, operands, .decoded (by rw [hop]) (by rw [hop]) (h.map _ ?_)⟩
      rintro i ⟨a, b, rfl⟩
      exact .main hop
  | bits =>
      have hcode : (fetchOpcode m).1 = 0xCB := Opcode.eq_of_pageCode? (congrArg _ hop)
      refine ⟨_, _, _, .decoded (by rw [hop]) (by rw [hop]) (streams_fetchOpcode.map _ ?_)⟩
      rintro _ rfl
      rw [hcode]
      exact .bits _
  | extended =>
      have hcode : (fetchOpcode m).1 = 0xED := Opcode.eq_of_pageCode? (congrArg _ hop)
      obtain ⟨operands, h⟩ := exists_streams_fetchForm
        (Form.ofExtended (fetchOpcode (fetchOpcode m).2).1) (fetchOpcode (fetchOpcode m).2).2
      refine ⟨_, _, operands, .decoded (by rw [hop]) (by rw [hop]) (.opcode (h.map _ ?_))⟩
      rintro i ⟨a, b, rfl⟩
      rw [hcode]
      exact .extended

theorem Notes.fetch :
    Notes (fun e => e.isFetch) (fetch : Exec (Logged σ) δ Operation) fetch m := by
  obtain ⟨n, opcodes, operands, h⟩ := exists_streams_fetch m
  exact ⟨_, fun e he => Bus.Event.isFetch_of_mem_fetches _ _ _ (List.mem_toArray.mp he), h.trace⟩

/-- A fetch keeps what the counters of the stream leave alone. -/
theorem Keeps.fetch_of_streamed {γ : Type} {f : Registers → γ}
    (hf : ∀ n k r, f (Registers.streamed n k r) = f r) :
    Keeps f (fetch : Exec σ δ Operation) := by
  intro m
  obtain ⟨n, opcodes, operands, h⟩ := exists_streams_fetch m
  rw [h.cpu]
  exact hf n operands.length m.cpu.regs

theorem Keeps.fetch {γ : Type} {f : Registers → γ} (hf : Registers.Blind f) :
    Keeps f (fetch : Exec σ δ Operation) :=
  .fetch_of_streamed fun _ _ r => hf r _ r.sp r.wz _

end Exec
end Z80
