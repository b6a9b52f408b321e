import Z80.Word

/-!
The level of an input line. A held line falls back to `clear` by itself when
the processor takes the interrupt.
-/
namespace Z80

inductive LineState
  | clear | assert | hold
deriving DecidableEq, Inhabited

namespace LineState

def isActive : LineState → Bool
  | .clear => false
  | .assert | .hold => true

def name : LineState → String
  | .clear => "Clear"
  | .assert => "Assert"
  | .hold => "Hold"

def ofName? : String → Option LineState
  | "Clear" => some .clear
  | "Assert" => some .assert
  | "Hold" => some .hold
  | _ => none

def toByte : LineState → Byte
  | .clear => 0
  | .assert => 1
  | .hold => 2

/-- Any byte that is no level of its own counts as an asserted line. -/
def ofByte (b : Byte) : LineState :=
  if b = 0 then .clear else if b = 2 then .hold else .assert

/-- The level after the interrupt of this line was taken. -/
def taken : LineState → LineState
  | .hold => .clear
  | s => s

@[simp] theorem ofByte_toByte (s : LineState) : ofByte (toByte s) = s := by
  cases s <;> rfl

@[simp] theorem ofName?_name (s : LineState) : ofName? (name s) = some s := by
  cases s <;> rfl

end LineState
end Z80
