import Z80.Word

/-!
The names under which a debugger reaches the state of the processor: the
registers, their pairs and halves, the interrupt latches, the two input
lines and the four slots of the daisy chain.
-/
namespace Z80

inductive RegisterName
  | pc | sp | af | bc | de | hl | ix | iy
  | af' | bc' | de' | hl'
  | a | f | b | c | d | e | h | l
  | ixh | ixl | iyh | iyl
  | i | r | im | iff1 | iff2 | halt
  | wz | prepc | nmiState | irqState
  | dc0 | dc1 | dc2 | dc3
deriving DecidableEq, Inhabited

namespace RegisterName

def all : List RegisterName :=
  [.pc, .sp, .af, .bc, .de, .hl, .ix, .iy,
    .af', .bc', .de', .hl',
    .a, .f, .b, .c, .d, .e, .h, .l,
    .ixh, .ixl, .iyh, .iyl,
    .i, .r, .im, .iff1, .iff2, .halt,
    .wz, .prepc, .nmiState, .irqState,
    .dc0, .dc1, .dc2, .dc3]

/-- The alternate pairs end in an apostrophe. -/
def name : RegisterName → String
  | .pc => "pc"
  | .sp => "sp"
  | .af => "af"
  | .bc => "bc"
  | .de => "de"
  | .hl => "hl"
  | .ix => "ix"
  | .iy => "iy"
  | .af' => "af'"
  | .bc' => "bc'"
  | .de' => "de'"
  | .hl' => "hl'"
  | .a => "a"
  | .f => "f"
  | .b => "b"
  | .c => "c"
  | .d => "d"
  | .e => "e"
  | .h => "h"
  | .l => "l"
  | .ixh => "ixh"
  | .ixl => "ixl"
  | .iyh => "iyh"
  | .iyl => "iyl"
  | .i => "i"
  | .r => "r"
  | .im => "im"
  | .iff1 => "iff1"
  | .iff2 => "iff2"
  | .halt => "halt"
  | .wz => "wz"
  | .prepc => "prepc"
  | .nmiState => "nmi_state"
  | .irqState => "irq_state"
  | .dc0 => "dc0"
  | .dc1 => "dc1"
  | .dc2 => "dc2"
  | .dc3 => "dc3"

/-- The slot of the daisy chain that a name stands for. -/
def daisySlot : RegisterName → Option (Fin 4)
  | .dc0 => some 0
  | .dc1 => some 1
  | .dc2 => some 2
  | .dc3 => some 3
  | _ => none

/-- A name is read in any mixture of upper and lower case ASCII letters. -/
def ofName? (s : String) : Option RegisterName :=
  all.find? fun reg => reg.name == s.toLower

end RegisterName

/-- No register has the given name. -/
structure UnknownRegister where
  name : String
deriving DecidableEq

def UnknownRegister.message (e : UnknownRegister) : String :=
  s!"unknown register `{e.name}`"

def RegisterName.parse (s : String) : Except UnknownRegister RegisterName :=
  match ofName? s with
  | some reg => .ok reg
  | none => .error { name := s }

end Z80
