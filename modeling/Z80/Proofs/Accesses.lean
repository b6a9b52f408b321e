import Z80.Proofs.Traces

/-!
Only a fetch fetches. Executing an instruction reads and writes data and ports,
in whatever state it starts, so all bytes of the instruction stream come from the
fetch before it.
-/
namespace Z80.Exec

open Bus (Logged)

variable {σ δ α β : Type}

/-- The one action does on the tracing bus what the other does on the bus
itself, and fetches nothing. -/
def FetchFree (x : Exec (Logged σ) δ α) (y : Exec σ δ α) : Prop :=
  ∀ m : Machine σ δ, Notes (fun e => e.isFetch = false) x y m

namespace FetchFree

theorem pure (v : α) : FetchFree (pure v : Exec (Logged σ) δ α) (pure v) :=
  fun _ => .pure v

theorem bind {x : Exec (Logged σ) δ α} {y : Exec σ δ α} {g : α → Exec (Logged σ) δ β}
    {k : α → Exec σ δ β} (hxy : FetchFree x y) (hgk : ∀ v, FetchFree (g v) (k v)) :
    FetchFree (x >>= g) (y >>= k) :=
  fun m => .bind (hxy m) (hgk _ _)

theorem discard {x : Exec (Logged σ) δ α} {y : Exec σ δ α} (h : FetchFree x y) :
    FetchFree (discard x) (discard y) :=
  fun m => (h m).discard

theorem ite {c : Prop} [Decidable c] {x x' : Exec (Logged σ) δ α} {y y' : Exec σ δ α}
    (h : FetchFree x y) (h' : FetchFree x' y') :
    FetchFree (if c then x else x') (if c then y else y') := by
  split
  · exact h
  · exact h'

theorem cpu : FetchFree (cpu : Exec (Logged σ) δ (Cpu δ)) cpu :=
  fun _ => .silent fun _ => rfl

theorem regs : FetchFree (regs : Exec (Logged σ) δ Registers) regs :=
  fun _ => .silent fun _ => rfl

theorem modifyCpu (g : Cpu δ → Cpu δ) :
    FetchFree (modifyCpu g : Exec (Logged σ) δ Unit) (modifyCpu g) :=
  fun _ => .modifyCpu g

theorem modifyRegs (g : Registers → Registers) :
    FetchFree (modifyRegs g : Exec (Logged σ) δ Unit) (modifyRegs g) :=
  .modifyCpu _

theorem access (event : α → Bus.Event) (act : StateM σ α) (h : ∀ v, (event v).isFetch = false) :
    FetchFree (onBus (Logged.noting event act) : Exec (Logged σ) δ α) (onBus act) :=
  fun _ => .access event act (h _)

theorem address (m : Cell) : FetchFree (address m : Exec (Logged σ) δ Word) (address m) :=
  .bind .regs fun _ => .bind (.modifyRegs _) fun _ => .pure _

theorem indirect (m : Indirect) : FetchFree (indirect m : Exec (Logged σ) δ Word) (indirect m) := by
  cases m <;> exact .bind .regs fun _ => .pure _

theorem jump (w : Word) : FetchFree (jump w : Exec (Logged σ) δ Unit) (jump w) :=
  .modifyRegs _

theorem jumpRelative (d : Byte) :
    FetchFree (jumpRelative d : Exec (Logged σ) δ Unit) (jumpRelative d) :=
  .bind .regs fun _ => .jump _

theorem branchIf (cc : Condition) {x : Exec (Logged σ) δ Unit} {y : Exec σ δ Unit}
    (h : FetchFree x y) : FetchFree (branchIf cc x) (branchIf cc y) :=
  .bind .regs fun _ => .ite (.bind h fun _ => .pure _) (.pure _)

theorem store (copy : Option Reg8) (v : Byte) :
    FetchFree (bits.store copy v : Exec (Logged σ) δ Unit) (bits.store copy v) := by
  cases copy with
  | some _ => exact .modifyRegs _
  | none => exact .pure _

theorem endRound (again : Bool) (last next : Flags) :
    FetchFree (endRound again last next : Exec (Logged σ) δ Bool) (endRound again last next) :=
  .bind (.modifyRegs _) fun _ => .pure _

variable [Bus σ]

theorem read (a : Word) : FetchFree (read a : Exec (Logged σ) δ Byte) (read a) :=
  .access (.read a) _ fun _ => rfl

theorem write (a : Word) (v : Byte) :
    FetchFree (write a v : Exec (Logged σ) δ Unit) (write a v) :=
  .access (fun _ => .write a v) _ fun _ => rfl

theorem ioRead (a : Word) : FetchFree (ioRead a : Exec (Logged σ) δ Byte) (ioRead a) :=
  .access (.ioRead a) _ fun _ => rfl

theorem ioWrite (a : Word) (v : Byte) :
    FetchFree (ioWrite a v : Exec (Logged σ) δ Unit) (ioWrite a v) :=
  .access (fun _ => .ioWrite a v) _ fun _ => rfl

theorem read16 (a : Word) : FetchFree (read16 a : Exec (Logged σ) δ Word) (read16 a) :=
  .bind (.read _) fun _ => .bind (.read _) fun _ => .pure _

theorem write16 (a w : Word) : FetchFree (write16 a w : Exec (Logged σ) δ Unit) (write16 a w) :=
  .bind (.write _ _) fun _ => .write _ _

theorem push (w : Word) : FetchFree (push w : Exec (Logged σ) δ Unit) (push w) :=
  .bind .regs fun _ => .bind (.write _ _) fun _ => .bind (.write _ _) fun _ => .modifyRegs _

theorem pop : FetchFree (pop : Exec (Logged σ) δ Word) pop :=
  .bind .regs fun _ => .bind (.read16 _) fun _ => .bind (.modifyRegs _) fun _ => .pure _

theorem readPlace (p : Place) : FetchFree (readPlace p : Exec (Logged σ) δ Byte) (readPlace p) := by
  cases p with
  | reg _ => exact .bind .regs fun _ => .pure _
  | mem m => exact .bind (.address m) fun _ => .read _

theorem modifyPlace (p : Place) (op : Byte → Flags → Result 8) :
    FetchFree (modifyPlace p op : Exec (Logged σ) δ Byte) (modifyPlace p op) := by
  cases p with
  | reg _ => exact .bind .regs fun _ => .bind (.modifyRegs _) fun _ => .pure _
  | mem m =>
      exact .bind (.address m) fun _ => .bind (.read _) fun _ => .bind .regs fun _ =>
        .bind (.write _ _) fun _ => .bind (.modifyRegs _) fun _ => .pure _

theorem callTo (addr : Word) : FetchFree (callTo addr : Exec (Logged σ) δ Unit) (callTo addr) :=
  .bind .regs fun _ => .bind (.push _) fun _ => .modifyRegs _

theorem ret : FetchFree (ret : Exec (Logged σ) δ Unit) ret :=
  .bind .pop fun _ => .jump _

theorem bits (op : BitOp) (p : Place) (copy : Option Reg8) :
    FetchFree (bits op p copy : Exec (Logged σ) δ Unit) (bits op p copy) := by
  cases op with
  | bit _ => exact .bind (.readPlace p) fun _ => .bind .regs fun _ => .modifyRegs _
  | rotate _ | res _ | set _ => exact .bind (.modifyPlace p _) fun _ => .store copy _

theorem rotateDigits (ra rm : (a m : Byte) → Byte) :
    FetchFree (rotateDigits ra rm : Exec (Logged σ) δ Unit) (rotateDigits ra rm) :=
  .bind .regs fun _ => .bind (.read _) fun _ => .bind (.write _ _) fun _ => .modifyRegs _

theorem block (kind : BlockKind) (dir : Direction) (repeats : Bool) :
    FetchFree (block kind dir repeats : Exec (Logged σ) δ Bool) (block kind dir repeats) := by
  cases kind with
  | copy =>
      exact .bind .regs fun _ => .bind (.read _) fun _ => .bind (.write _ _) fun _ =>
        .bind (.modifyRegs _) fun _ => .endRound _ _ _
  | search =>
      exact .bind .regs fun _ => .bind (.read _) fun _ => .bind (.modifyRegs _) fun _ =>
        .endRound _ _ _
  | input =>
      exact .bind .regs fun _ => .bind (.ioRead _) fun _ => .bind (.write _ _) fun _ =>
        .bind (.modifyRegs _) fun _ => .endRound _ _ _
  | output =>
      exact .bind .regs fun _ => .bind (.read _) fun _ => .bind (.ioWrite _ _) fun _ =>
        .bind (.modifyRegs _) fun _ => .endRound _ _ _

variable [Peripheral δ]

theorem plain (i : Instr) : FetchFree (plain i : Exec (Logged σ) δ Unit) (plain i) := by
  cases i with
  | ld _ _ | ldImm _ _ | ldFromSystem _ | ldImm16 _ _ | ldSP _ | exDEHL | exAF | exx | inc16 _
  | dec16 _ | add16 _ _ | adc16 _ | sbc16 _ | aluImm _ _ | daa | cpl | neg | rotateA _ | jp _
  | jpIf _ _ | jpPointer _ | halt | di | ei | im _ => exact .modifyRegs _
  | ldSystem dst => cases dst <;> exact .modifyRegs _
  | load _ m => exact .bind (.address m) fun _ => .bind (.read _) fun _ => .modifyRegs _
  | store m _ => exact .bind (.address m) fun _ => .bind .regs fun _ => .write _ _
  | storeImm m _ => exact .bind (.address m) fun _ => .write _ _
  | loadA src => exact .bind (.indirect src) fun _ => .bind (.read _) fun _ => .modifyRegs _
  | storeA dst =>
      exact .bind (.indirect dst) fun _ => .bind .regs fun _ => .bind (.write _ _) fun _ =>
        .modifyRegs _
  | loadPointer _ _ | load16 _ _ => exact .bind (.read16 _) fun _ => .modifyRegs _
  | storePointer _ _ | store16 _ _ =>
      exact .bind .regs fun _ => .bind (.write16 _ _) fun _ => .modifyRegs _
  | push _ => exact .bind .regs fun _ => .push _
  | pop _ => exact .bind .pop fun _ => .modifyRegs _
  | exSP _ =>
      exact .bind .regs fun _ => .bind (.read16 _) fun _ => .bind (.write16 _ _) fun _ =>
        .modifyRegs _
  | alu _ src => exact .bind (.readPlace src) fun _ => .modifyRegs _
  | inc p | dec p => exact .discard (.modifyPlace p _)
  | scf | ccf => exact .bind .cpu fun _ => .modifyRegs _
  | bits op p copy => exact .bits op p copy
  | rrd | rld =>
      simp only [Exec.plain]
      exact .rotateDigits _ _
  | jr d => exact .jumpRelative d
  | call _ | rst _ => exact .bind (.modifyRegs _) fun _ => .callTo _
  | ret => exact .ret
  | retn => exact .bind .ret fun _ => .modifyRegs _
  | reti => exact .bind .ret fun _ => .bind (.modifyRegs _) fun _ => .modifyCpu _
  | inA _ | inC _ => exact .bind .regs fun _ => .bind (.ioRead _) fun _ => .modifyRegs _
  | outA _ | outC _ => exact .bind .regs fun _ => .bind (.ioWrite _ _) fun _ => .modifyRegs _
  | nop | undefined | jrIf _ _ | djnz _ | callIf _ _ | retIf _ | block _ _ _ => exact .pure _

theorem execute (i : Instr) : FetchFree (execute i : Exec (Logged σ) δ Bool) (execute i) := by
  cases i with
  | jrIf cc d => exact .branchIf cc (.jumpRelative d)
  | djnz d =>
      exact .bind .regs fun _ => .bind (.modifyRegs _) fun _ =>
        .ite (.bind (.jumpRelative d) fun _ => .pure _) (.pure _)
  | callIf cc addr => exact .bind (.modifyRegs _) fun _ => .branchIf cc (.callTo addr)
  | retIf cc => exact .branchIf cc .ret
  | block kind dir repeats => exact .block kind dir repeats
  | _ => exact .bind (.plain _) fun _ => .pure _

end FetchFree
end Z80.Exec
