import Z80.Proofs.Devices
import Z80.RegisterAccess

/-!
What a write by register name does to all that is read by register name. A
pair and its halves are the same bytes; every other two names are apart. Two
writes go further than their own register: an active interrupt line makes the
chain poll its devices, and an edge of the NMI line is latched.
-/
namespace Z80

variable {δ : Type}

namespace Word

theorem ofBool_bne (v : Word) : ofBool (v != 0) = if v = 0 then 0 else 1 := by
  by_cases h : v = 0 <;> simp [ofBool, h]

end Word

namespace RegisterName

/-- The ways in which a register takes a word. -/
inductive Kind
  | word | byte | mode | flag | line | slot

def kind : RegisterName → Kind
  | .a | .f | .b | .c | .d | .e | .h | .l | .ixh | .ixl | .iyh | .iyl | .i | .r => .byte
  | .im => .mode
  | .iff1 | .iff2 | .halt => .flag
  | .nmiState | .irqState => .line
  | .dc0 | .dc1 | .dc2 | .dc3 => .slot
  | _ => .word

/-- What is read after a word was written. -/
def Kind.clip (v : Word) : Kind → Word
  | .word => v
  | .byte | .slot => Word.ofByte v.low
  | .mode => BitVec.ofNat 16 (min v.low.toNat 2)
  | .flag => if v = 0 then 0 else 1
  | .line => if v.low = 0 then 0 else if v.low = 2 then 2 else 1

/-- The names of the two bytes of a pair, high byte first. -/
def halves? : RegisterName → Option (RegisterName × RegisterName)
  | .af => some (.a, .f)
  | .bc => some (.b, .c)
  | .de => some (.d, .e)
  | .hl => some (.h, .l)
  | .ix => some (.ixh, .ixl)
  | .iy => some (.iyh, .iyl)
  | _ => none

def IsHalf (half pair : RegisterName) : Prop :=
  ∃ p ∈ pair.halves?, half = p.1 ∨ half = p.2

instance (half pair : RegisterName) : Decidable (half.IsHalf pair) :=
  match h : pair.halves? with
  | none => isFalse (by simp [IsHalf, h])
  | some p => decidable_of_iff (half = p.1 ∨ half = p.2) (by simp [IsHalf, h])

/-- Two names for the same storage, or for a part of it. -/
def Shares (reg other : RegisterName) : Prop :=
  reg = other ∨ reg.IsHalf other ∨ other.IsHalf reg

instance (reg other : RegisterName) : Decidable (reg.Shares other) :=
  inferInstanceAs (Decidable (_ ∨ _))

theorem daisySlot_inj {reg other : RegisterName} {slot : Fin 4}
    (h : reg.daisySlot = some slot) (hother : other.daisySlot = some slot) : reg = other := by
  cases reg <;> cases h <;> cases other <;> first | rfl | cases hother

/-- The name stands for a part of the register file. -/
def inFile (reg : RegisterName) : Prop :=
  reg.daisySlot = none ∧ reg ≠ .irqState ∧ reg ≠ .nmiState

end RegisterName

namespace LineState

theorem ofByte_toByte_ofByte (b : Byte) :
    Word.ofByte (ofByte b).toByte = if b = 0 then 0 else if b = 2 then 2 else 1 := by
  revert b
  decide +kernel

theorem isActive_ofByte (b : Byte) : (ofByte b).isActive = (b != 0) := by
  revert b
  decide +kernel

end LineState

namespace Cpu

variable {reg other hi lo : RegisterName} {slot : Fin 4} (cpu : Cpu δ) (v : Word)

theorem ofByte_clampMode (b : Byte) :
    Word.ofByte (clampMode b) = BitVec.ofNat 16 (min b.toNat 2) := by
  revert b
  decide +kernel

theorem register_of_halves (h : reg.halves? = some (hi, lo)) :
    cpu.register reg = Word.ofBytes (cpu.register hi).low (cpu.register lo).low := by
  cases reg with
  | ix | iy =>
      cases h
      simp only [register_ixh, register_ixl, register_iyh, register_iyl, Word.low_ofByte]
      rfl
  | af | bc | de | hl =>
      cases h
      simp only [register, Word.low_ofByte]
      rfl
  | _ => cases h

theorem register_of_daisySlot (h : reg.daisySlot = some slot) :
    cpu.register reg = Word.ofByte (cpu.slotState slot) := by
  cases reg <;> cases h <;> rfl

theorem slotState_setSlotState (b : Byte) :
    (cpu.setSlotState slot b).slotState slot = if cpu.chain.isNone then 0 else b := by
  simp only [setSlotState, slotState]
  cases cpu.chain with
  | none => rfl
  | some c => exact Vector.getElem_set_self slot.isLt

theorem slotState_setSlotState_of_ne {slot' : Fin 4} (b : Byte) (h : slot ≠ slot') :
    (cpu.setSlotState slot b).slotState slot' = cpu.slotState slot' := by
  simp only [setSlotState, slotState]
  cases cpu.chain with
  | none => rfl
  | some c => exact Vector.getElem_set_ne slot.isLt slot'.isLt (Fin.val_ne_of_ne h)

theorem register_setSlotState (b : Byte) (h : other.daisySlot ≠ some slot) :
    (cpu.setSlotState slot b).register other = cpu.register other := by
  cases hother : other.daisySlot with
  | none => cases other <;> first | rfl | cases hother
  | some slot' =>
      have hne : slot ≠ slot' := fun heq => h (heq ▸ hother)
      rw [register_of_daisySlot _ hother, register_of_daisySlot _ hother,
        slotState_setSlotState_of_ne _ _ hne]

theorem register_setNmiLine (s : LineState) (h : other ≠ .nmiState) :
    (cpu.setNmiLine s).register other = cpu.register other := by
  cases other <;> first | rfl | exact absurd rfl h

variable [Peripheral δ]

theorem setRegister_of_daisySlot (h : reg.daisySlot = some slot) :
    cpu.setRegister reg v = cpu.setSlotState slot v.low := by
  cases reg <;> cases h <;> rfl

theorem chain_setIrqLine (s : LineState) :
    (cpu.setIrqLine s).chain =
      if s.isActive then cpu.chain.map DaisyChain.arbitrate else cpu.chain := rfl

theorem register_setIrqLine (s : LineState) (h : other ≠ .irqState)
    (hquiet : other.daisySlot.isSome → s.isActive = false) :
    (cpu.setIrqLine s).register other = cpu.register other := by
  cases hother : other.daisySlot with
  | none => cases other <;> first | rfl | exact absurd rfl h | cases hother
  | some slot =>
      have hchain : (cpu.setIrqLine s).chain = cpu.chain := by
        rw [chain_setIrqLine, hquiet (by rw [hother]; rfl)]
        rfl
      simp only [register_of_daisySlot _ hother, slotState, hchain]

/-- A write to the register file is seen under no name but its own, its pair and
its halves. -/
theorem register_setRegister_of_inFile (hreg : reg.inFile) (h : ¬reg.Shares other) :
    (cpu.setRegister reg v).register other = cpu.register other := by
  obtain ⟨hslot, hirq, hnmi⟩ := hreg
  cases reg <;> cases other <;>
    first | contradiction | exact absurd (by decide) h | rfl | (simp; rfl)

theorem register_setRegister (hreg : reg.daisySlot = none) :
    (cpu.setRegister reg v).register reg = reg.kind.clip v := by
  cases reg with
  | dc0 | dc1 | dc2 | dc3 => cases hreg
  | f => exact congrArg Word.ofByte (Flags.toByte_ofByte _)
  | im => exact ofByte_clampMode _
  | iff1 | iff2 | halt => exact Word.ofBool_bne _
  | nmiState | irqState => exact LineState.ofByte_toByte_ofByte _
  | af => exact Registers.af_setAF ..
  | af' => exact Registers.af'_setAF' ..
  | bc | de | hl | bc' | de' | hl' | ix | iy => exact Word.ofBytes_high_low _
  | ixh | ixl | iyh | iyl =>
      simp only [setRegister_ixh, setRegister_ixl, setRegister_iyh, setRegister_iyl, register_ixh,
        register_ixl, register_iyh, register_iyl]
      rfl
  | _ => rfl

theorem register_slot_setRegister (hreg : reg.daisySlot = some slot) :
    (cpu.setRegister reg v).register reg = if cpu.chain.isNone then 0 else Word.ofByte v.low := by
  rw [setRegister_of_daisySlot _ _ hreg, register_of_daisySlot _ hreg, slotState_setSlotState,
    apply_ite Word.ofByte]
  rfl

theorem register_half_setRegister (h : reg.halves? = some (hi, lo)) :
    (cpu.setRegister reg v).register hi = Word.ofByte v.high ∧
      (cpu.setRegister reg v).register lo = Word.ofByte v.low := by
  cases reg with
  | af =>
      cases h
      exact ⟨rfl, congrArg Word.ofByte (Flags.toByte_ofByte _)⟩
  | bc | de | hl =>
      cases h
      exact ⟨rfl, rfl⟩
  | ix | iy =>
      cases h
      simp only [register_ixh, register_ixl, register_iyh, register_iyl]
      exact ⟨rfl, rfl⟩
  | _ => cases h

/-- The half that is not written stays. -/
theorem register_other_half (h : other.halves? = some (hi, lo)) :
    (cpu.setRegister hi v).register lo = cpu.register lo ∧
      (cpu.setRegister lo v).register hi = cpu.register hi := by
  cases other <;> cases h <;> first | exact ⟨rfl, rfl⟩ | (simp; exact ⟨rfl, rfl⟩)

theorem kind_of_halves (h : other.halves? = some (hi, lo)) :
    hi.kind = .byte ∧ hi.daisySlot = none ∧ lo.kind = .byte ∧ lo.daisySlot = none := by
  cases other <;> cases h <;> exact ⟨rfl, rfl, rfl, rfl⟩

theorem apart_setRegister (h : ¬reg.Shares other)
    (hpoll : reg = .irqState → v.low ≠ 0 → other.daisySlot = none) :
    (cpu.setRegister reg v).register other = cpu.register other := by
  have hne : other ≠ reg := fun heq => h (.inl heq.symm)
  cases hslot : reg.daisySlot with
  | some slot =>
      rw [setRegister_of_daisySlot _ _ hslot]
      refine register_setSlotState _ _ fun hother => hne ?_
      exact RegisterName.daisySlot_inj hother hslot
  | none =>
      by_cases hirq : reg = .irqState
      · subst hirq
        refine register_setIrqLine _ _ hne fun hother => ?_
        rw [LineState.isActive_ofByte, bne_eq_false_iff_eq]
        refine Decidable.byContradiction fun hlow => ?_
        rw [hpoll rfl hlow] at hother
        cases hother
      · by_cases hnmi : reg = .nmiState
        · subst hnmi
          exact register_setNmiLine _ _ hne
        · exact register_setRegister_of_inFile _ _ ⟨hslot, hirq, hnmi⟩ h

/-- What a write leaves behind outside of the registers that have names. -/
theorem rest_setRegister :
    let after := cpu.setRegister reg v
    (after.config, after.total, after.eiDelay, after.afterLdAIR, after.q) =
      (cpu.config, cpu.total, cpu.eiDelay, cpu.afterLdAIR, cpu.q) := by
  cases reg <;> rfl

theorem nmiPending_setRegister :
    (cpu.setRegister reg v).nmiPending =
      (cpu.nmiPending || (reg == .nmiState && cpu.nmiLine == .clear && v.low != 0)) := by
  by_cases hreg : reg = .nmiState
  · subst hreg
    exact congrArg (fun active => cpu.nmiPending || (cpu.nmiLine == .clear && active))
      (LineState.isActive_ofByte v.low)
  · rw [beq_false_of_ne hreg, Bool.false_and, Bool.false_and, Bool.or_false]
    cases reg <;> first | rfl | exact absurd rfl hreg

/-- The order of service is not up to a write, unless it drives the interrupt line. -/
theorem latches_setRegister (h : reg ≠ .irqState) :
    ((cpu.setRegister reg v).chain.map fun c => (c.devices, c.request, c.service)) =
      cpu.chain.map fun c => (c.devices, c.request, c.service) := by
  cases hslot : reg.daisySlot with
  | some slot =>
      rw [setRegister_of_daisySlot _ _ hslot, setSlotState, Option.map_map]
      rfl
  | none => cases reg <;> first | rfl | exact absurd rfl h | cases hslot

/-- A write to one register by its name, seen by every name. -/
structure Written (reg : RegisterName) (v : Word) (before after : Cpu δ) : Prop where
  own : after.register reg =
    if reg.daisySlot.isSome ∧ before.chain = none then 0 else reg.kind.clip v
  halves (hi lo : RegisterName) : reg.halves? = some (hi, lo) →
    after.register hi = Word.ofByte v.high ∧ after.register lo = Word.ofByte v.low
  pair (p hi lo : RegisterName) : p.halves? = some (hi, lo) →
    (reg = hi → after.register p = Word.ofBytes v.low (before.register lo).low) ∧
      (reg = lo → after.register p = Word.ofBytes (before.register hi).low v.low)
  apart (other : RegisterName) : ¬reg.Shares other →
    (reg = .irqState → v.low ≠ 0 → other.daisySlot = none) →
    after.register other = before.register other
  polls : reg = .irqState → after.chain =
    if v.low = 0 then before.chain else before.chain.map DaisyChain.arbitrate
  polled : reg = .irqState → v.low ≠ 0 → ∀ c ∈ before.chain, ∃ next ∈ after.chain,
    next.devices = c.devices ∧ next.Polled ∧
      ∀ i, c.size ≤ i → next.states[i]? = c.states[i]?
  latches : reg ≠ .irqState →
    (after.chain.map fun c => (c.devices, c.request, c.service)) =
      before.chain.map fun c => (c.devices, c.request, c.service)
  edge : after.nmiPending =
    (before.nmiPending || (reg == .nmiState && before.nmiLine == .clear && v.low != 0))
  drivesIrq : reg = .irqState → after = before.setIrqLine (LineState.ofByte v.low)
  drivesNmi : reg = .nmiState → after = before.setNmiLine (LineState.ofByte v.low)
  rest : (after.config, after.total, after.eiDelay, after.afterLdAIR, after.q) =
    (before.config, before.total, before.eiDelay, before.afterLdAIR, before.q)

/-- Every write goes to its own storage, and to no other. -/
theorem written_setRegister (reg : RegisterName) (v : Word) (cpu : Cpu δ) :
    Written reg v cpu (cpu.setRegister reg v) where
  own := by
    cases hslot : reg.daisySlot with
    | none =>
        rw [register_setRegister _ _ hslot]
        rfl
    | some slot =>
        have hkind : reg.kind = .slot := by
          cases reg <;> cases hslot <;> rfl
        rw [register_slot_setRegister _ _ hslot, hkind]
        simp only [Option.isSome_some, true_and, Option.isNone_iff_eq_none]
        rfl
  halves _ _ h := register_half_setRegister _ _ h
  pair p hi lo h := by
    obtain ⟨hhi, hhi', hlo, hlo'⟩ := kind_of_halves h
    obtain ⟨hstays, hstays'⟩ := register_other_half cpu v h
    refine ⟨?_, ?_⟩
    · rintro rfl
      rw [register_of_halves _ h, hstays, register_setRegister _ _ hhi', hhi]
      exact congrArg (Word.ofBytes · _) (Word.low_ofByte _)
    · rintro rfl
      rw [register_of_halves _ h, hstays', register_setRegister _ _ hlo', hlo]
      exact congrArg (Word.ofBytes _) (Word.low_ofByte _)
  apart _ h hpoll := apart_setRegister _ _ h hpoll
  polls h := by
    subst h
    refine (chain_setIrqLine ..).trans ?_
    simp only [LineState.isActive_ofByte, bne_iff_ne, ne_eq, ite_not]
  polled h hlow c hc := by
    subst h
    have hchain : (cpu.setRegister .irqState v).chain = cpu.chain.map DaisyChain.arbitrate := by
      refine (chain_setIrqLine ..).trans (if_pos ?_)
      rw [LineState.isActive_ofByte]
      exact bne_iff_ne.mpr hlow
    refine ⟨c.arbitrate, ?_, rfl, c.polled_arbitrate, fun _ hi => c.states_arbitrate_of_le hi⟩
    rw [hchain, hc]
    rfl
  latches h := latches_setRegister _ _ h
  edge := nmiPending_setRegister _ _
  drivesIrq h := by
    subst h
    rfl
  drivesNmi h := by
    subst h
    rfl
  rest := rest_setRegister _ _

end Cpu
end Z80
