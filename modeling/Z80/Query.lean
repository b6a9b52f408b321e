import Z80.RegisterAccess

/-!
Asking a processor for its state by path: a register, a single flag such as
`flags.z`, or the count of T-states. Asking changes nothing.
-/
namespace Z80

inductive Value
  | bool (b : Bool)
  | byte (v : Byte)
  | word (v : Word)
  | count (n : Nat)
deriving DecidableEq

namespace Value

def toNat : Value → Nat
  | .bool b => b.toNat
  | .byte v => v.toNat
  | .word v => v.toNat
  | .count n => n

/-- Upper-case hexadecimal digits, filled up with zeros on the left. -/
def hexText (digits n : Nat) : String :=
  let text := (Nat.toDigits 16 n).map Char.toUpper
  String.ofList ('0' :: 'x' :: List.replicate (digits - text.length) '0' ++ text)

/-- Bytes and words are written in hexadecimal at their full width, counts
in decimal. -/
def text : Value → String
  | .bool true => "true"
  | .bool false => "false"
  | .byte v => hexText 2 v.toNat
  | .word v => hexText 4 v.toNat
  | .count n => toString n

end Value

/-- The flag that a path names. -/
def Flags.named? : String → Option (Flags → Bool)
  | "flags.s" => some Flags.s
  | "flags.z" => some Flags.z
  | "flags.y" => some Flags.y
  | "flags.h" => some Flags.h
  | "flags.x" => some Flags.x
  | "flags.p" => some Flags.p
  | "flags.n" => some Flags.n
  | "flags.c" => some Flags.c
  | _ => none

/-- The kind of value that a register holds, made from its word view. -/
def RegisterName.value (reg : RegisterName) (w : Word) : Value :=
  match reg with
  | .iff1 | .iff2 | .halt => .bool (w != 0)
  | .pc | .sp | .af | .bc | .de | .hl | .ix | .iy | .af' | .bc' | .de' | .hl' | .wz
  | .prepc => .word w
  | _ => .byte w.low

namespace Cpu

variable {δ : Type}

def query (cpu : Cpu δ) (path : String) : Option Value :=
  match Flags.named? path with
  | some flag => some (.bool (flag cpu.regs.f))
  | none =>
    if path = "cycles" then some (.count cpu.total)
    else (RegisterName.ofName? path).map fun reg => reg.value (cpu.register reg)

/-- The paths of a snapshot. The slots of a daisy chain are left out. -/
def queryPaths : List String :=
  ["a", "f", "b", "c", "d", "e", "h", "l",
    "af", "bc", "de", "hl",
    "af'", "bc'", "de'", "hl'",
    "ix", "iy", "ixh", "ixl", "iyh", "iyl",
    "sp", "pc", "i", "r", "wz", "prepc",
    "iff1", "iff2", "im", "halt",
    "nmi_state", "irq_state",
    "flags.s", "flags.z", "flags.y", "flags.h",
    "flags.x", "flags.p", "flags.n", "flags.c",
    "cycles"]

def snapshot (cpu : Cpu δ) : List (String × Value) :=
  queryPaths.filterMap fun path => (cpu.query path).map fun v => (path, v)

end Cpu
end Z80
