import Mathlib.Data.List.Basic
import Z80.Cpu
import Z80.Daisy.StateLatch

/-!
The devices of a daisy chain: which of them ask for service, which are being
served, and which of them the chain finds when it polls. A chain changes its
devices one at a time.
-/
namespace Z80

variable {δ : Type}

open Peripheral

namespace Peripheral

/-- The state bits of a device follow its service: clear after a reset, then
a request, and service in its place until the return from interrupt. -/
structure Orderly (δ : Type) [Peripheral δ] : Prop where
  reset (d : δ) : irqState (Peripheral.reset d) = 0
  entry (d : δ) :
    requests (irqState (interruptEntry d).2) = false ∧ inService (irqState (interruptEntry d).2)
  reti (d : δ) : inService (irqState (interruptReti d)) = false

variable [Peripheral δ]

/-- The device at an index asks for service. -/
def asks (devices : List δ) (i : Nat) : Bool :=
  devices[i]?.any fun d => requests (irqState d)

/-- The device at an index is under service. -/
def serves (devices : List δ) (i : Nat) : Bool :=
  devices[i]?.any fun d => inService (irqState d)

theorem serves_modify (devices : List δ) (i j : Nat) (g : δ → δ) :
    serves (devices.modify i g) j =
      if i = j then devices[j]?.any (fun d => inService (irqState (g d)))
      else serves devices j := by
  simp only [serves, List.getElem?_modify]
  split <;> cases devices[j]? <;> rfl

theorem serves_modify_of_eq (devices : List δ) (i : Nat) {g : δ → δ}
    (hg : ∀ d, inService (irqState (g d)) = inService (irqState d)) :
    serves (devices.modify i g) = serves devices := by
  funext j
  rw [serves_modify]
  simp only [hg]
  exact ite_self _

theorem lt_of_serves {devices : List δ} {i : Nat} (h : serves devices i) :
    i < devices.length := by
  obtain ⟨d, hd, -⟩ := (Option.any_eq_true ..).mp h
  exact (List.getElem?_eq_some_iff.mp hd).1

omit [Peripheral δ] in
theorem inService_congr {s t : Byte} (h : s ||| requestBit = t ||| requestBit) :
    inService s = inService t := by
  have hmask (b : Byte) : (b ||| requestBit) &&& serviceBit = b &&& serviceBit := by
    rw [BitVec.and_comm, BitVec.and_or_distrib_left]
    simp [requestBit, serviceBit, BitVec.and_comm]
  rw [inService, inService, ← hmask s, ← hmask t, h]

end Peripheral

/-- The latch answers with the usual masks and clears with a reset. -/
def StateLatch.Tidy (d : StateLatch) : Prop :=
  d.onEntry = ⟨0xFE, 0x02⟩ ∧ d.onReti = ⟨0xFD, 0x00⟩ ∧ d.resetTo = 0

abbrev TidyLatch := { d : StateLatch // d.Tidy }

namespace TidyLatch

def ofVector (vector : Byte) : TidyLatch :=
  ⟨{ vector }, rfl, rfl, rfl⟩

/-- The host asks for service on behalf of the device. -/
def ask (d : TidyLatch) : TidyLatch :=
  ⟨{ d.val with state := d.val.state ||| requestBit }, d.property⟩

/-- The host takes the request back. -/
def withdraw (d : TidyLatch) : TidyLatch :=
  ⟨{ d.val with state := d.val.state &&& ~~~requestBit }, d.property⟩

instance : Peripheral TidyLatch where
  reset d := ⟨Peripheral.reset d.val, d.property⟩
  irqState d := irqState d.val
  interruptEntry d := ((interruptEntry d.val).1, ⟨(interruptEntry d.val).2, d.property⟩)
  interruptReti d := ⟨interruptReti d.val, d.property⟩

theorem orderly : Orderly TidyLatch where
  reset d := d.property.2.2
  entry d := by
    have hmask : ∀ s : Byte, requests (Mask.apply ⟨0xFE, 0x02⟩ s) = false ∧
        inService (Mask.apply ⟨0xFE, 0x02⟩ s) := by decide +kernel
    have hentry := hmask d.val.state
    rwa [← d.property.1] at hentry
  reti d := by
    have hmask : ∀ s : Byte, inService (Mask.apply ⟨0xFD, 0x00⟩ s) = false := by decide +kernel
    have hreti := hmask d.val.state
    rwa [← d.property.2.1] at hreti

end TidyLatch

namespace DaisyChain

variable [Peripheral δ]

/-- The device that a poll chooses asks for service, and no device above it
asks or is under service. -/
theorem asks_of_firstRequest {devices : List δ} {i : Nat}
    (h : firstRequest (devices.map irqState) = some i) :
    asks devices i ∧ ∀ j < i, ¬asks devices j ∧ ¬serves devices j := by
  induction devices generalizing i with
  | nil => cases h
  | cons d rest ih =>
      simp only [List.map_cons, firstRequest] at h
      split at h
      · cases h
        exact ⟨‹_›, fun j hj => absurd hj (Nat.not_lt_zero j)⟩
      · split at h
        · cases h
        · obtain ⟨k, hk, rfl⟩ := Option.map_eq_some_iff.mp h
          obtain ⟨hasks, habove⟩ := ih hk
          refine ⟨hasks, fun j hj => ?_⟩
          cases j with
          | zero => exact ⟨‹_›, ‹_›⟩
          | succ j => exact habove j (Nat.lt_of_succ_lt_succ hj)

theorem serves_of_firstInService {devices : List δ} {i : Nat}
    (h : firstInService (devices.map irqState) = some i) :
    serves devices i ∧ ∀ j < i, ¬serves devices j := by
  rw [firstInService, List.findIdx?_map] at h
  obtain ⟨hlt, hserves, habove⟩ := List.findIdx?_eq_some_iff_getElem.mp h
  simp only [serves]
  refine ⟨by simpa [List.getElem?_eq_getElem hlt] using hserves, fun j hj => ?_⟩
  simpa [List.getElem?_eq_getElem (Nat.lt_trans hj hlt)] using habove j hj

theorem not_serves_of_firstInService {devices : List δ}
    (h : firstInService (devices.map irqState) = none) (j : Nat) : ¬serves devices j := by
  rw [firstInService, List.findIdx?_map, List.findIdx?_eq_none_iff] at h
  intro hserves
  obtain ⟨d, hd, hservice⟩ := (Option.any_eq_true ..).mp hserves
  exact absurd hservice (Bool.eq_false_iff.mp (h d (List.mem_of_getElem? hd)))

theorem firstRequest_eq_some_iff {devices : List δ} {i : Nat} :
    firstRequest (devices.map irqState) = some i ↔
      asks devices i ∧ ∀ j < i, ¬asks devices j ∧ ¬serves devices j := by
  refine ⟨asks_of_firstRequest, fun h => ?_⟩
  induction devices generalizing i with
  | nil => cases h.1
  | cons d rest ih =>
      obtain ⟨hasks, habove⟩ := h
      simp only [List.map_cons, firstRequest]
      cases i with
      | zero => exact if_pos hasks
      | succ i =>
          have htop : ¬requests (irqState d) ∧ ¬inService (irqState d) :=
            habove 0 (Nat.succ_pos i)
          have hrest := ih ⟨hasks, fun j hj => habove (j + 1) (Nat.succ_lt_succ hj)⟩
          rw [if_neg htop.1, if_neg htop.2, hrest]
          rfl

theorem firstInService_eq_some_iff {devices : List δ} {i : Nat} :
    firstInService (devices.map irqState) = some i ↔
      serves devices i ∧ ∀ j < i, ¬serves devices j := by
  refine ⟨serves_of_firstInService, fun ⟨hserves, habove⟩ => ?_⟩
  cases hfirst : firstInService (devices.map irqState) with
  | none => exact absurd hserves (not_serves_of_firstInService hfirst i)
  | some k =>
      obtain ⟨hk, hbefore⟩ := serves_of_firstInService hfirst
      rcases Nat.lt_trichotomy i k with hlt | rfl | hlt
      · exact absurd hserves (hbefore i hlt)
      · rfl
      · exact absurd hk (habove k hlt)

/-- The latches are those of a poll of the devices as they are now: the device to
be told of a return is the first one under service, and the one that may be answered
is the first that asks, unless one above it is under service. -/
structure Polled (c : DaisyChain δ) : Prop where
  states (i : Nat) (d : δ) : c.devices[i]? = some d → c.states[i]? = some (irqState d)
  service (i : Nat) :
    c.service = some i ↔ serves c.devices i ∧ ∀ j < i, ¬serves c.devices j
  request (i : Nat) :
    c.request = some i ↔
      asks c.devices i ∧ ∀ j < i, ¬asks c.devices j ∧ ¬serves c.devices j

theorem states_arbitrate (c : DaisyChain δ) {i : Nat} (hi : i < 4) :
    c.arbitrate.states[i] = ((c.devices.map irqState)[i]?).getD c.states[i] :=
  Vector.getElem_ofFn hi

theorem polled_arbitrate (c : DaisyChain δ) : c.arbitrate.Polled where
  states i d hd := by
    have hdevice : c.devices[i]? = some d := hd
    obtain ⟨hlt, -⟩ := List.getElem?_eq_some_iff.mp hdevice
    have hslot : i < 4 := Nat.lt_of_lt_of_le hlt c.length_le
    rw [Vector.getElem?_eq_getElem hslot, c.states_arbitrate hslot, List.getElem?_map, hdevice]
    rfl
  service _ := firstInService_eq_some_iff
  request _ := firstRequest_eq_some_iff

/-- A slot without a device is not polled. -/
theorem states_arbitrate_of_le (c : DaisyChain δ) {i : Nat} (hi : c.size ≤ i) :
    c.arbitrate.states[i]? = c.states[i]? := by
  by_cases hslot : i < 4
  · have hnone : c.devices[i]? = none := List.getElem?_eq_none_iff.mpr hi
    rw [Vector.getElem?_eq_getElem hslot, Vector.getElem?_eq_getElem hslot,
      c.states_arbitrate hslot, List.getElem?_map, hnone]
    rfl
  · rw [Vector.getElem?_eq_none (Nat.not_lt.mp hslot), Vector.getElem?_eq_none (Nat.not_lt.mp hslot)]

omit [Peripheral δ] in
theorem not_isEmpty_of_lt {c : DaisyChain δ} {i : Nat} (h : i < c.size) : ¬c.isEmpty := by
  intro hempty
  rw [size, List.isEmpty_iff.mp hempty] at h
  exact Nat.not_lt_zero i h

theorem devices_acknowledge {c : DaisyChain δ} {i : Nat} (h : c.request = some i) :
    c.acknowledge.2.devices = c.devices.modify i fun d => (interruptEntry d).2 := by
  simp only [acknowledge, h]
  cases hd : c.devices[i]? with
  | none => exact (List.modify_eq_self (List.getElem?_eq_none_iff.mp hd)).symm
  | some d =>
      obtain ⟨hlt, rfl⟩ := List.getElem?_eq_some_iff.mp hd
      rw [List.modify_eq_set_get _ hlt]
      rfl

theorem acknowledge_none {c : DaisyChain δ} (h : c.request = none) :
    c.acknowledge.2 = c := by
  simp only [acknowledge, h]

theorem acknowledge_beyond {c : DaisyChain δ} {i : Nat} (h : c.request = some i)
    (hi : ¬i < c.size) : c.acknowledge.2 = c := by
  have hd : c.devices[i]? = none := List.getElem?_eq_none_iff.mpr (Nat.le_of_not_lt hi)
  simp only [acknowledge, h, hd]

theorem devices_reti {c : DaisyChain δ} {i : Nat} (h : c.service = some i) :
    c.reti.devices = c.devices.modify i interruptReti := by
  simp only [reti, h]
  rfl

theorem reti_none {c : DaisyChain δ} (h : c.service = none) : c.reti = c := by
  simp only [reti, h]

end DaisyChain

/-- The devices of the attached chain, the highest priority first. -/
def Cpu.peripherals (cpu : Cpu δ) : List δ :=
  (cpu.chain.map DaisyChain.devices).getD []

theorem Cpu.peripherals_of_chain {cpu : Cpu δ} {c : DaisyChain δ} (h : cpu.chain = some c) :
    cpu.peripherals = c.devices := by
  rw [peripherals, h]
  rfl

end Z80
