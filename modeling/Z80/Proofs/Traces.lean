import Z80.Bus.Logged
import Z80.Proofs.Frame

/-!
The accesses of an action. On a bus that keeps every access an action does
what it does on the bus itself, so what is kept tells which addresses it looks
at and which it changes.
-/
namespace Z80

open Bus (Logged)

variable {σ δ α β : Type}

namespace Bus.Event

/-- The access fetches a byte of an instruction. -/
def isFetch : Bus.Event → Bool
  | .fetchOpcode .. | .fetchOperand .. => true
  | _ => false

/-- The access reads or writes the data at an address. -/
def isAt (addr : Word) : Bus.Event → Bool
  | .read a _ | .write a _ => a = addr
  | _ => false

end Bus.Event

/-- The machine on a bus that keeps every access. -/
def Machine.traced (events : Array Bus.Event) (m : Machine σ δ) : Machine (Logged σ) δ :=
  ⟨m.cpu, ⟨m.bus, true, events⟩⟩

namespace Exec

/-- From a machine on, the one action does on the tracing bus what the other
does on the bus itself, and what is kept of it has a property. -/
def Notes (P : Bus.Event → Prop) (x : Exec (Logged σ) δ α) (y : Exec σ δ α) (m : Machine σ δ) :
    Prop :=
  ∃ more : Array Bus.Event, (∀ e ∈ more, P e) ∧
    ∀ events, x (m.traced events) = ((y m).1, (y m).2.traced (events ++ more))

variable {P : Bus.Event → Prop} {m : Machine σ δ}

/-- An action that makes no access. -/
theorem Notes.silent {x : Exec (Logged σ) δ α} {y : Exec σ δ α}
    (h : ∀ events, x (m.traced events) = ((y m).1, (y m).2.traced events)) : Notes P x y m :=
  ⟨#[], by simp, by simpa using h⟩

theorem Notes.pure (v : α) : Notes P (pure v : Exec (Logged σ) δ α) (pure v) m :=
  .silent fun _ => rfl

theorem Notes.modifyCpu (g : Cpu δ → Cpu δ) :
    Notes P (modifyCpu g : Exec (Logged σ) δ Unit) (modifyCpu g) m :=
  .silent fun _ => rfl

theorem Notes.bind {x : Exec (Logged σ) δ α} {y : Exec σ δ α} {g : α → Exec (Logged σ) δ β}
    {k : α → Exec σ δ β} (hxy : Notes P x y m) (hgk : Notes P (g (y m).1) (k (y m).1) (y m).2) :
    Notes P (x >>= g) (y >>= k) m := by
  obtain ⟨more, hmore, hx⟩ := hxy
  obtain ⟨rest, hrest, hg⟩ := hgk
  refine ⟨more ++ rest, ?_, fun events => ?_⟩
  · intro e he
    rcases Array.mem_append.mp he with he | he
    · exact hmore e he
    · exact hrest e he
  · rw [bind_apply, bind_apply, hx, hg, Array.append_assoc]

theorem Notes.regs {g : Registers → Exec (Logged σ) δ α} {k : Registers → Exec σ δ α}
    (h : Notes P (g m.cpu.regs) (k m.cpu.regs) m) : Notes P (regs >>= g) (regs >>= k) m :=
  h

theorem Notes.discard {x : Exec (Logged σ) δ α} {y : Exec σ δ α} (h : Notes P x y m) :
    Notes P (discard x) (discard y) m :=
  have ⟨more, hmore, hx⟩ := h
  ⟨more, hmore, fun events => congrArg (fun r : α × Machine (Logged σ) δ => ((), r.2)) (hx events)⟩

/-- An access is kept as one event. -/
theorem Notes.access (event : α → Bus.Event) (act : StateM σ α) (h : P (event (act m.bus).1)) :
    Notes P (onBus (Logged.noting event act) : Exec (Logged σ) δ α) (onBus act) m :=
  ⟨#[event (act m.bus).1], by simpa using h, fun _ => rfl⟩

theorem Notes.mono {Q : Bus.Event → Prop} {x : Exec (Logged σ) δ α} {y : Exec σ δ α}
    (h : Notes P x y m) (hPQ : ∀ e, P e → Q e) : Notes Q x y m :=
  have ⟨more, hmore, hx⟩ := h
  ⟨more, fun e he => hPQ e (hmore e he), hx⟩

variable [Bus σ]

theorem Notes.read {a : Word} (h : ∀ v, P (.read a v)) :
    Notes P (read a : Exec (Logged σ) δ Byte) (read a) m :=
  .access _ _ (h _)

theorem Notes.write {a : Word} (h : ∀ v, P (.write a v)) (v : Byte) :
    Notes P (write a v : Exec (Logged σ) δ Unit) (write a v) m :=
  .access (fun _ => .write a v) _ (h v)

end Exec
end Z80
