import Mathlib.Data.List.Chain
import Z80.Proofs.Polls

/-!
Requests that are taken back. A host drives the IRQ line as the devices ask for
service, after every change at once. An active line makes the chain poll its
devices, a clear one does not. So an acknowledge enters a device that asks for
service, or one whose request was taken back after the last poll, when no
device asks any more.
-/
namespace Z80

variable {δ : Type}

open Peripheral

namespace Cpu

/-- For each device whether it asks for service. -/
def asking [Peripheral δ] (cpu : Cpu δ) : List Bool :=
  cpu.peripherals.map fun d => requests (irqState d)

/-- The level of the IRQ line that the devices call for. -/
def demand [Peripheral δ] (cpu : Cpu δ) : LineState :=
  if cpu.asking.any id then .assert else .clear

/-- The device that the next acknowledge is to enter. -/
def chosen (cpu : Cpu δ) : Option Nat :=
  cpu.chain.bind DaisyChain.request

end Cpu

namespace Moment

variable [Peripheral δ]

/-- From outside, a device begins to ask for service or ceases to. -/
def shifts (x : Moment δ) : Bool :=
  x.round? == none && x.after.asking != x.before.asking

/-- The host drives the IRQ line to the level that the devices call for. -/
def follows (x : Moment δ) : Bool :=
  match x.event with
  | .request (.setIrqLine s) => s == x.before.demand
  | _ => false

end Moment

/-- The IRQ line follows the devices at once, and nothing else. -/
structure Prompt [Peripheral δ] (log : List (Moment δ)) : Prop where
  shift : log.IsChain fun x y => x.shifts → y.follows
  drive : ∀ x ∈ log, x.drivesIrq → x.follows

/-- On a chain the requests are heard as of the last poll. -/
structure Heard [Peripheral δ] (log : List (Moment δ)) : Prop where
  /-- On a chain with devices every maskable interrupt enters one of them. -/
  entry : ∀ x ∈ log, x.isIrq → x.before.peripherals ≠ [] → ∃ i ∈ x.entered?,
    x.after.peripherals = x.before.peripherals.modify i fun d => (interruptEntry d).2
  /-- No other round enters a device. -/
  other : ∀ x ∈ log, x.round?.isSome → x.entered? = none →
    x.after.peripherals = x.before.peripherals ∨
      ∃ i, x.after.peripherals = x.before.peripherals.modify i interruptReti
  /-- A device that is entered asks for service, or it did so in the last poll and
  now the line is clear and no device asks any more. -/
  asking : ∀ past x future, log = past ++ x :: future → ∀ i ∈ x.entered?,
    asks x.before.peripherals i ∨
      x.before.irqLine = .clear ∧ (∀ j, ¬asks x.before.peripherals j) ∧
        ∃ earlier p later, past = earlier ++ p :: later ∧ p.polls ∧
          asks p.after.peripherals i ∧ ∀ z ∈ later, ¬z.polls

namespace Cpu

variable [Peripheral δ]

theorem asks_of_asking {cpu : Cpu δ} (i : Nat) :
    asks cpu.peripherals i = (cpu.asking[i]?).getD false := by
  rw [asking, List.getElem?_map, asks]
  cases cpu.peripherals[i]? <;> rfl

theorem not_asks_of_demand {cpu : Cpu δ} (h : cpu.demand = .clear) (j : Nat) :
    ¬asks cpu.peripherals j := by
  intro hasks
  obtain ⟨d, hd, hrequest⟩ := (Option.any_eq_true ..).mp hasks
  have hany : cpu.asking.any id :=
    List.any_eq_true.mpr ⟨true, List.mem_map.mpr ⟨d, List.mem_of_getElem? hd, hrequest⟩, rfl⟩
  rw [demand, if_pos hany] at h
  cases h

end Cpu

namespace Moment

variable [Peripheral δ] {x : Moment δ}

/-- A poll chooses the first device that asks for service. -/
theorem Lawful.asks_of_polls (h : x.Lawful fun r => r.isRoutine) (hpolls : x.polls) {i : Nat}
    (hi : x.after.chosen = some i) : asks x.after.peripherals i := by
  obtain ⟨c, hafter, hrequest⟩ := Option.bind_eq_some_iff.mp hi
  obtain ⟨d, hchain, rfl⟩ := Option.map_eq_some_iff.mp (h.chain.symm.trans hafter)
  obtain ⟨polled, hpolled⟩ := onChain_of_polls hchain hpolls
  rw [Cpu.peripherals_of_chain hafter]
  rw [hpolled] at hrequest ⊢
  exact (DaisyChain.asks_of_firstRequest hrequest).1

theorem Lawful.chosen_of_not_polls (h : x.Lawful fun r => r.isRoutine) (hpolls : ¬x.polls) :
    x.after.chosen = x.before.chosen := by
  by_cases hdevice : ∃ i g, x.event = .request (.modifyDevice i g)
  · obtain ⟨i, g, hevent⟩ := hdevice
    rw [Cpu.chosen, h.chain, hevent, Option.bind_map]
    rfl
  · have hkeep := h.chain_of_not_polls hpolls fun i g hevent => hdevice ⟨i, g, hevent⟩
    rw [Cpu.chosen, hkeep, Cpu.chosen]

/-- Apart from the host's own changes, who asks is the same until a poll. -/
theorem Lawful.asks_of_not_shifts (h : x.Lawful fun r => r.isRoutine) (hpolls : ¬x.polls)
    (hshifts : ¬x.shifts) : asks x.after.peripherals = asks x.before.peripherals := by
  cases hround : x.round? with
  | none =>
      funext i
      have hasking : x.after.asking = x.before.asking := by
        simpa [shifts, hround] using hshifts
      rw [Cpu.asks_of_asking, hasking, Cpu.asks_of_asking]
  | some r => rw [h.peripherals_of_round (Option.isSome_iff_exists.mpr ⟨r, hround⟩) hpolls]

theorem Lawful.irqLine_of_drive (h : x.Lawful fun r => r.isRoutine) {s : LineState}
    (hevent : x.event = .request (.setIrqLine s)) : x.after.irqLine = s := by
  simp only [Lawful, hevent] at h
  have hafter : x.before.setIrqLine s = x.after := h.2
  rw [← hafter]
  rfl

omit [Peripheral δ] in
/-- A line that is driven active makes the chain poll. -/
theorem eq_clear_of_not_polls (hpolls : ¬x.polls) {s : LineState}
    (hevent : x.event = .request (.setIrqLine s)) : s = .clear := by
  simp only [polls, hevent] at hpolls
  cases s with
  | clear => rfl
  | assert | hold => exact absurd rfl hpolls

omit [Peripheral δ] in
theorem drivesIrq_iff : x.drivesIrq ↔ ∃ s, x.event = .request (.setIrqLine s) := by
  simp only [drivesIrq]
  split <;> simp_all

theorem follows_iff : x.follows ↔ x.event = .request (.setIrqLine x.before.demand) := by
  simp only [follows]
  split <;> simp_all

theorem Lawful.irqLine_clear (h : x.Lawful fun r => r.isRoutine) (hpolls : ¬x.polls)
    (hline : x.before.irqLine = .clear) : x.after.irqLine = .clear := by
  by_cases hdrive : x.drivesIrq
  · obtain ⟨s, hevent⟩ := drivesIrq_iff.mp hdrive
    rw [h.irqLine_of_drive hevent, eq_clear_of_not_polls hpolls hevent]
  · rw [h.irqLine hdrive, hline]
    split <;> rfl

end Moment

namespace Cpu.Leads

variable [Peripheral δ] {first last : Cpu δ} {log : List (Moment δ)}

theorem chosen_lasts (h : Leads (fun r => r.isRoutine) first log last)
    (hquiet : ∀ z ∈ log, ¬z.polls) : last.chosen = first.chosen := by
  induction h with
  | nil _ => rfl
  | @cons x log _ hx _ ih =>
      rw [ih fun z hz => hquiet z (List.mem_cons_of_mem x hz),
        hx.chosen_of_not_polls (hquiet x List.mem_cons_self)]

/-- What the chain has chosen, it has chosen in a last poll. -/
theorem exists_last_poll (h : Leads (fun r => r.isRoutine) first log last)
    (hne : last.chosen ≠ first.chosen) :
    ∃ earlier p later, log = earlier ++ p :: later ∧ p.polls ∧ ∀ z ∈ later, ¬z.polls := by
  induction log using List.reverseRecOn generalizing last with
  | nil =>
      rw [h.eq_of_nil] at hne
      exact absurd rfl hne
  | append_singleton log x ih =>
      obtain ⟨hpast, hx, rfl⟩ := h.unsnoc
      by_cases hpolls : x.polls
      · exact ⟨log, x, [], rfl, hpolls, fun _ hz => nomatch hz⟩
      · rw [hx.chosen_of_not_polls hpolls] at hne
        obtain ⟨earlier, p, later, rfl, hp, hlater⟩ := ih hpast hne
        refine ⟨earlier, p, later ++ [x], by simp, hp, fun z hz => ?_⟩
        rcases List.mem_append.mp hz with hz | hz
        · exact hlater z hz
        · rwa [List.mem_singleton.mp hz]

/-- After a poll the devices ask as they did then, or no more at all, unless the
host has only just changed that. -/
theorem asks_or_withdrawn (h : Leads (fun r => r.isRoutine) first log last)
    (hquiet : ∀ z ∈ log, ¬z.polls) (hprompt : log.IsChain fun x y => x.shifts → y.follows) :
    asks last.peripherals = asks first.peripherals ∨
      last.irqLine = .clear ∧ (∀ j, ¬asks last.peripherals j) ∨ ∃ z ∈ log.getLast?, z.shifts := by
  induction log using List.reverseRecOn generalizing last with
  | nil =>
      rw [h.eq_of_nil]
      exact .inl rfl
  | append_singleton log x ih =>
      obtain ⟨hpast, hx, rfl⟩ := h.unsnoc
      have hpolls := hquiet x (List.mem_append_right _ List.mem_cons_self)
      by_cases hshifts : x.shifts
      · exact .inr (.inr ⟨x, by simp, hshifts⟩)
      have hasks := hx.asks_of_not_shifts hpolls hshifts
      have hbefore := ih hpast (fun z hz => hquiet z (List.mem_append_left _ hz))
        hprompt.left_of_append
      rw [hasks]
      rcases hbefore with hsame | ⟨hline, hnone⟩ | ⟨y, hy, hyshifts⟩
      · exact .inl hsame
      · have hline' := hx.irqLine_clear hpolls hline
        exact .inr (.inl ⟨hline', hnone⟩)
      · -- The drive that follows the change has not polled, so it has cleared the line.
        have hfollows := Moment.follows_iff.mp
          ((List.isChain_append.mp hprompt).2.2 y hy x rfl hyshifts)
        have hdemand := Moment.eq_clear_of_not_polls hpolls hfollows
        have hline := hx.irqLine_of_drive hfollows
        exact .inr (.inl ⟨hline.trans hdemand, not_asks_of_demand hdemand⟩)

theorem heard (h : Leads (fun r => r.isRoutine) first log last)
    (hfirst : first.ChainInRange) (hfresh : first.chosen = none) (hprompt : Prompt log) :
    Heard log where
  entry := by
    intro x hx hirq hdevices
    obtain ⟨past, future, rfl⟩ := List.append_of_mem hx
    obtain ⟨hpast, hlawful, -⟩ := h.focus
    have hbefore := hpast.invariant (fun _ hy => hy.chainInRange) hfirst
    obtain ⟨i, hi⟩ := hlawful.entered_of_irq hbefore hirq hdevices
    exact ⟨i, hi, hlawful.peripherals_of_entered hi⟩
  other := by
    intro x hx hround hnone
    obtain ⟨past, future, rfl⟩ := List.append_of_mem hx
    obtain ⟨-, hlawful, -⟩ := h.focus
    by_cases hpolls : x.polls
    · rcases Moment.polls_round hround hpolls with hsome | ⟨hreti, c, hchain, i, hservice⟩
      · rw [hnone] at hsome
        cases hsome
      · exact .inr ⟨i, hlawful.peripherals_of_reti hreti hchain hservice⟩
    · exact .inl (hlawful.peripherals_of_round hround hpolls)
  asking := by
    rintro past x future rfl i hi
    obtain ⟨hpast, hlawful, -⟩ := h.focus
    obtain ⟨hirq, c, hchain, hrequest, -⟩ := Moment.entered?_eq_some_iff.mp hi
    have hchosen : x.before.chosen = some i := by rw [chosen, hchain]; exact hrequest
    have hne : x.before.chosen ≠ first.chosen := by simp [hchosen, hfresh]
    obtain ⟨earlier, p, later, rfl, hp, hlater⟩ := hpast.exists_last_poll hne
    obtain ⟨-, hpoll, hrest⟩ := hpast.focus
    have hasked := hpoll.asks_of_polls hp ((hrest.chosen_lasts hlater).symm.trans hchosen)
    have hchain : (later ++ x :: future).IsChain fun x y => x.shifts → y.follows := by
      have hshift := hprompt.shift
      rw [List.append_assoc, List.cons_append] at hshift
      exact hshift.right_of_append.tail
    rcases hrest.asks_or_withdrawn hlater hchain.left_of_append with hsame | ⟨hline, hnone⟩ | hshift
    · left
      rwa [hsame]
    · exact .inr ⟨hline, hnone, earlier, p, later, rfl, hp, hasked, hlater⟩
    · -- A round does not drive the line, so no change comes directly before it.
      obtain ⟨y, hy, hyshifts⟩ := hshift
      have hfollows := Moment.follows_iff.mp
        ((List.isChain_append.mp hchain).2.2 y hy x rfl hyshifts)
      cases hirq.symm.trans hfollows

end Cpu.Leads

/-- In every run from a reset, under a host that drives the IRQ line promptly. -/
theorem Cpu.Chronicle.requests_heard [Peripheral δ] {cpu : Cpu δ} {log : List (Moment δ)}
    (h : cpu.Chronicle (fun r => r.isRoutine) log) (hprompt : Prompt log) : Heard log := by
  obtain ⟨chain, old, hlog⟩ := h.leads
  refine hlog.heard (chainInRange_resetWith chain old) ?_ hprompt
  cases chain <;> rfl

/-- A request that is taken back while another device asks: the line stays
asserted, and the chain turns to the other device. -/
theorem Cpu.Chronicle.requests_heard_two :
    let chain : DaisyChain TidyLatch :=
      { devices := [.ofVector 0x08, .ofVector 0x10], length_le := by decide }
    let start := ({} : Cpu TidyLatch).resetWith (some chain)
    let upper := start.modifyDevice 0 TidyLatch.ask
    let raised := upper.setIrqLine .assert
    let both := raised.modifyDevice 1 TidyLatch.ask
    let again := both.setIrqLine .assert
    let lower := again.modifyDevice 0 TidyLatch.withdraw
    let m : Machine Bus.Flat TidyLatch := ⟨lower.setIrqLine .assert, Bus.Flat.load 0 [0xFB] {}⟩
    let log := [⟨start, .request (.modifyDevice 0 TidyLatch.ask), upper⟩] ++
      [⟨upper, .request (.setIrqLine .assert), raised⟩] ++
      [⟨raised, .request (.modifyDevice 1 TidyLatch.ask), both⟩] ++
      [⟨both, .request (.setIrqLine .assert), again⟩] ++
      [⟨again, .request (.modifyDevice 0 TidyLatch.withdraw), lower⟩] ++
      [⟨lower, .request (.setIrqLine .assert), m.cpu⟩] ++ m.moments 9
    (m.run 9).2.cpu.Chronicle (fun r => r.isRoutine) log ∧ Prompt log ∧
    log.filterMap Moment.entered? = [1] ∧ Heard log := by
  intro chain start upper raised both again lower m log
  have hupper : upper.Chronicle (fun r => r.isRoutine) _ :=
    (Chronicle.reset (some chain) {}).reach 0 TidyLatch.ask rfl
  have hboth := (hupper.drive .assert rfl).reach 1 TidyLatch.ask rfl
  have hlower := (hboth.drive .assert rfl).reach 0 TidyLatch.withdraw rfl
  have hlog : (m.run 9).2.cpu.Chronicle (fun r => r.isRoutine) log :=
    (hlower.drive .assert rfl).run m.bus 9
  have hprompt : Prompt log := ⟨by decide +kernel, by decide +kernel⟩
  exact ⟨hlog, hprompt, by decide +kernel, requests_heard hlog hprompt⟩

/-- The only request is taken back before it is heard: the line is clear, no
device asks, and the interrupt is taken all the same. -/
theorem Cpu.Chronicle.withdrawn_request_entered :
    let chain : DaisyChain TidyLatch := { devices := [.ofVector 0x10], length_le := by decide }
    let start := ({} : Cpu TidyLatch).resetWith (some chain)
    let asking := start.modifyDevice 0 TidyLatch.ask
    let raised := asking.setIrqLine .assert
    let withdrawn := raised.modifyDevice 0 TidyLatch.withdraw
    let m : Machine Bus.Flat TidyLatch := ⟨withdrawn.setIrqLine .clear, Bus.Flat.load 0 [0xFB] {}⟩
    let log := [⟨start, .request (.modifyDevice 0 TidyLatch.ask), asking⟩] ++
      [⟨asking, .request (.setIrqLine .assert), raised⟩] ++
      [⟨raised, .request (.modifyDevice 0 TidyLatch.withdraw), withdrawn⟩] ++
      [⟨withdrawn, .request (.setIrqLine .clear), m.cpu⟩] ++ m.moments 9
    Orderly TidyLatch ∧ (m.run 9).2.cpu.Chronicle Request.OnlyAsks log ∧ Prompt log ∧
    ∃ x ∈ log, x.entered? = some 0 ∧ x.before.irqLine = .clear ∧
      ¬asks x.before.peripherals 0 := by
  intro chain start asking raised withdrawn m log
  have hasking := (Chronicle.reset (some chain) {}).reach 0 _ (TidyLatch.onlyAsks_ask 0)
  have hwithdrawn := (hasking.drive .assert rfl).reach 0 _ (TidyLatch.onlyAsks_withdraw 0)
  have hlog : (m.run 9).2.cpu.Chronicle Request.OnlyAsks log :=
    (hwithdrawn.drive .clear rfl).run m.bus 9
  exact ⟨TidyLatch.orderly, hlog, ⟨by decide +kernel, by decide +kernel⟩, by decide +kernel⟩

end Z80
