import Z80.Proofs.Polls

/-!
Nested service. A device under service blocks the devices below it, while one
above it may still interrupt its routine. So the devices under service form a
stack: the one that was entered last stands above the others, and it is the one
that is told of the next return from interrupt.
-/
namespace Z80

variable {δ : Type}

open Peripheral

/-- Service in a log is nested. -/
structure Nested [Peripheral δ] (log : List (Moment δ)) : Prop where
  /-- An acknowledge enters one device, and none above it is under service. -/
  entry : ∀ x ∈ log, ∀ i ∈ x.entered?,
    x.after.peripherals = x.before.peripherals.modify i (fun d => (interruptEntry d).2) ∧
      ∀ j < i, ¬serves x.before.peripherals j
  /-- A return from interrupt is told to one device: of those under service
  the one that was entered last. -/
  reti : ∀ past x future, log = past ++ x :: future → x.instr? = some .reti →
    (∃ j, serves x.before.peripherals j) →
    ∃ i, x.after.peripherals = x.before.peripherals.modify i interruptReti ∧
      serves x.before.peripherals i ∧
      ∃ earlier y later, past = earlier ++ y :: later ∧ y.entered? = some i ∧
        ∀ z ∈ later, ∀ j ∈ z.entered?, ¬serves x.before.peripherals j
  /-- No other round reaches a device. -/
  quiet : ∀ x ∈ log, x.round?.isSome → x.entered? = none →
    (x.instr? = some .reti → ∀ j, ¬serves x.before.peripherals j) →
    x.after.peripherals = x.before.peripherals

namespace DaisyChain

variable [Peripheral δ]

/-- The latches of the chain tell which devices are under service, and whose
request may be taken. -/
structure Tracks (c : DaisyChain δ) : Prop where
  service : ∀ i ∈ c.service, serves c.devices i ∧ ∀ j < i, ¬serves c.devices j
  idle : c.service = none → ∀ j, ¬serves c.devices j
  request : ∀ i ∈ c.request, ∀ j < i, ¬serves c.devices j

theorem tracks_arbitrate (c : DaisyChain δ) : c.arbitrate.Tracks where
  service _ hi := serves_of_firstInService hi
  idle h := not_serves_of_firstInService h
  request _ hi j hj := ((asks_of_firstRequest hi).2 j hj).2

theorem not_serves_reset (h : Orderly δ) (c : DaisyChain δ) (j : Nat) :
    ¬serves c.reset.devices j := by
  intro hserves
  obtain ⟨d, hd, hservice⟩ := (Option.any_eq_true ..).mp hserves
  obtain ⟨d, -, rfl⟩ := List.mem_map.mp (List.mem_of_getElem? hd)
  rw [h.reset] at hservice
  cases hservice

theorem tracks_reset (h : Orderly δ) (c : DaisyChain δ) : c.reset.Tracks where
  service _ hi := nomatch hi
  idle _ := not_serves_reset h c
  request _ hi := nomatch hi

namespace Tracks

variable {c : DaisyChain δ}

theorem acknowledge (h : c.Tracks) : c.acknowledge.2.Tracks := by
  simp only [DaisyChain.acknowledge]
  split
  · exact h
  · split
    · exact h
    · exact tracks_arbitrate _

theorem reti (h : c.Tracks) : c.reti.Tracks := by
  simp only [DaisyChain.reti]
  split
  · exact h
  · exact tracks_arbitrate _

theorem modifyDevice (h : c.Tracks) (i : Nat) {g : δ → δ}
    (hg : ∀ d, inService (irqState (g d)) = inService (irqState d)) :
    (c.modifyDevice i g).Tracks := by
  have hserves : serves (c.modifyDevice i g).devices = serves c.devices :=
    serves_modify_of_eq c.devices i hg
  constructor
  · rw [hserves]
    exact h.service
  · rw [hserves]
    exact h.idle
  · rw [hserves]
    exact h.request

theorem onChain (h : c.Tracks) {e : Event δ} (he : ∀ r, e = .request r → r.OnlyAsks) :
    (e.onChain c).Tracks :=
  e.onChain_cases h (fun _ _ => h.acknowledge) h.reti (tracks_arbitrate c)
    fun i _ hevent => h.modifyDevice i fun d => inService_congr (he _ hevent d)

end Tracks

theorem serves_acknowledge {c : DaisyChain δ} {j : Nat} (h : serves c.acknowledge.2.devices j) :
    serves c.devices j ∨ c.request = some j ∧ j < c.size := by
  cases hrequest : c.request with
  | none =>
      rw [acknowledge_none hrequest] at h
      exact .inl h
  | some i =>
      have hlt := lt_of_serves h
      rw [devices_acknowledge hrequest, List.length_modify] at hlt
      rw [devices_acknowledge hrequest, serves_modify] at h
      by_cases hi : i = j
      · exact .inr ⟨congrArg some hi, hlt⟩
      · rw [if_neg hi] at h
        exact .inl h

theorem serves_reti (horderly : Orderly δ) {c : DaisyChain δ} {j : Nat}
    (h : serves c.reti.devices j) : serves c.devices j := by
  cases hservice : c.service with
  | none => rwa [reti_none hservice] at h
  | some i =>
      rw [devices_reti hservice, serves_modify] at h
      split at h
      · obtain ⟨d, -, hd⟩ := (Option.any_eq_true ..).mp h
        rw [horderly.reti d] at hd
        cases hd
      · exact h

/-- Only an acknowledge puts a device under service. -/
theorem serves_onChain (horderly : Orderly δ) {c : DaisyChain δ} {e : Event δ}
    (he : ∀ r, e = .request r → r.OnlyAsks) {j : Nat} :
    serves (e.onChain c).devices j →
      serves c.devices j ∨ e = .round .irq ∧ c.request = some j ∧ j < c.size := by
  apply e.onChain_cases (P := fun next => serves next.devices j →
    serves c.devices j ∨ e = .round .irq ∧ c.request = some j ∧ j < c.size)
  · exact .inl
  · intro hirq _ h
    exact (serves_acknowledge h).imp_right fun hentered => ⟨hirq, hentered⟩
  · exact fun h => .inl (serves_reti horderly h)
  · exact .inl
  · intro i g hevent h
    have hserves := serves_modify_of_eq c.devices i fun d => inService_congr (he _ hevent d)
    left
    rw [← hserves]
    exact h

end DaisyChain

/-- The latches of an attached chain tell what is under service. -/
def Cpu.Tracks [Peripheral δ] (cpu : Cpu δ) : Prop :=
  ∀ chain ∈ cpu.chain, chain.Tracks

namespace Moment

variable [Peripheral δ] {x : Moment δ}

theorem Lawful.onlyAsks (h : x.Lawful Request.OnlyAsks) :
    ∀ r, x.event = .request r → r.OnlyAsks := by
  intro r hr
  simp only [Lawful, hr] at h
  exact h.1

theorem Lawful.routine (h : x.Lawful Request.OnlyAsks) : x.Lawful fun r => r.isRoutine :=
  h.mono fun _ hr => hr.isRoutine

theorem Lawful.tracks (h : x.Lawful Request.OnlyAsks)
    (hbefore : x.before.Tracks) : x.after.Tracks :=
  Cpu.forall_chain_map hbefore (fun _ hc => hc.onChain h.onlyAsks) h.routine.chain

theorem Lawful.serves_or_entered (horderly : Orderly δ) (h : x.Lawful Request.OnlyAsks) {j : Nat}
    (hj : serves x.after.peripherals j) :
    serves x.before.peripherals j ∨ x.entered? = some j := by
  rw [h.routine.peripherals] at hj
  cases hchain : x.before.chain with
  | none =>
      rw [hchain] at hj
      exact nomatch hj
  | some c =>
      rw [hchain] at hj
      rw [Cpu.peripherals_of_chain hchain]
      rcases DaisyChain.serves_onChain horderly h.onlyAsks hj with hserves | ⟨hirq, hrequest, hlt⟩
      · exact .inl hserves
      · exact .inr (entered?_eq_some_iff.mpr ⟨hirq, c, hchain, hrequest, hlt⟩)

theorem not_serves_above (hbefore : x.before.Tracks) {i : Nat}
    (hx : x.entered? = some i) : ∀ j < i, ¬serves x.before.peripherals j := by
  obtain ⟨-, c, hchain, hrequest, -⟩ := entered?_eq_some_iff.mp hx
  rw [Cpu.peripherals_of_chain hchain]
  exact (hbefore c hchain).request i hrequest

end Moment

namespace Cpu

variable [Peripheral δ]

theorem tracks_resetWith (horderly : Orderly δ) (chain : Option (DaisyChain δ)) (cpu : Cpu δ) :
    (cpu.resetWith chain).Tracks := by
  intro fresh hfresh
  obtain ⟨c, -, rfl⟩ := Option.map_eq_some_iff.mp hfresh
  exact DaisyChain.tracks_reset horderly c

theorem not_serves_resetWith (horderly : Orderly δ) (chain : Option (DaisyChain δ)) (cpu : Cpu δ)
    (j : Nat) : ¬serves (cpu.resetWith chain).peripherals j := by
  cases chain with
  | none => exact fun h => nomatch h
  | some c => exact DaisyChain.not_serves_reset horderly c j

/-- While a device is under service, the chain has latched the highest one. -/
theorem Tracks.service {cpu : Cpu δ} (h : cpu.Tracks) {j : Nat}
    (hj : serves cpu.peripherals j) :
    ∃ c i, cpu.chain = some c ∧ c.service = some i ∧ serves cpu.peripherals i ∧
      ∀ k < i, ¬serves cpu.peripherals k := by
  cases hchain : cpu.chain with
  | none =>
      rw [peripherals, hchain] at hj
      exact absurd hj Bool.false_ne_true
  | some c =>
      rw [peripherals_of_chain hchain] at hj ⊢
      cases hservice : c.service with
      | none => exact absurd hj ((h c hchain).idle hservice j)
      | some i => exact ⟨c, i, rfl, hservice, (h c hchain).service i hservice⟩

end Cpu

/-- Each device under service was entered, and since then only devices above
it were that are still under service. -/
def Stacked [Peripheral δ] (log : List (Moment δ)) (devices : List δ) : Prop :=
  ∀ i, serves devices i →
    ∃ earlier y later, log = earlier ++ y :: later ∧ y.entered? = some i ∧
      ∀ z ∈ later, ∀ j ∈ z.entered?, serves devices j → j < i

namespace Cpu.Leads

variable [Peripheral δ] {first last : Cpu δ} {log : List (Moment δ)}

theorem stacked (horderly : Orderly δ) (h : Leads Request.OnlyAsks first log last)
    (hfirst : first.Tracks) (hidle : ∀ j, ¬serves first.peripherals j) :
    Stacked log last.peripherals := by
  induction log using List.reverseRecOn generalizing last with
  | nil =>
      rw [← h.eq_of_nil]
      exact fun i hi => absurd hi (hidle i)
  | append_singleton log x ih =>
      obtain ⟨hpast, hx, rfl⟩ := h.unsnoc
      have hbefore := hpast.invariant (fun _ hy => hy.tracks) hfirst
      intro i hi
      by_cases hentered : x.entered? = some i
      · exact ⟨log, x, [], rfl, hentered, fun _ hz => nomatch hz⟩
      have hserved := (hx.serves_or_entered horderly hi).resolve_right hentered
      -- A device that is entered now stands above all that are under service.
      have hnow : ∀ j ∈ x.entered?, j < i := by
        intro j hj
        have hle : ¬i < j := fun hlt => Moment.not_serves_above hbefore hj i hlt hserved
        have hne : j ≠ i := fun heq => hentered (heq ▸ hj)
        omega
      obtain ⟨earlier, y, later, rfl, hy, hlater⟩ := ih hpast i hserved
      refine ⟨earlier, y, later ++ [x], by simp, hy, ?_⟩
      intro z hz j hj hserves
      rcases List.mem_append.mp hz with hz | hz
      · rcases hx.serves_or_entered horderly hserves with hserves | hagain
        · exact hlater z hz j hj hserves
        · exact hnow j hagain
      · rw [List.mem_singleton] at hz
        exact hnow j (hz ▸ hj)

theorem nested (horderly : Orderly δ) (h : Leads Request.OnlyAsks first log last)
    (hfirst : first.Tracks) (hidle : ∀ j, ¬serves first.peripherals j) : Nested log where
  entry := by
    intro x hx i hi
    obtain ⟨past, future, rfl⟩ := List.append_of_mem hx
    obtain ⟨hpast, hlawful, -⟩ := h.focus
    have hbefore := hpast.invariant (fun _ hy => hy.tracks) hfirst
    refine ⟨?_, Moment.not_serves_above hbefore hi⟩
    exact hlawful.routine.peripherals_of_entered hi
  reti := by
    rintro past x future rfl hreti ⟨j, hj⟩
    obtain ⟨hpast, hlawful, -⟩ := h.focus
    have hbefore := hpast.invariant (fun _ hy => hy.tracks) hfirst
    obtain ⟨c, i, hchain, hservice, hserves, habove⟩ := hbefore.service hj
    obtain ⟨earlier, y, later, rfl, hy, hlater⟩ := hpast.stacked horderly hfirst hidle i hserves
    refine ⟨i, hlawful.routine.peripherals_of_reti hreti hchain hservice, hserves, earlier, y, later,
      rfl, hy, ?_⟩
    intro z hz k hk hserved
    exact habove k (hlater z hz k hk hserved) hserved
  quiet := by
    intro x hx hround hentered hidle
    obtain ⟨past, future, rfl⟩ := List.append_of_mem hx
    obtain ⟨hpast, hlawful, -⟩ := h.focus
    have hbefore := hpast.invariant (fun _ hy => hy.tracks) hfirst
    refine hlawful.routine.peripherals_of_round hround fun hpolls => ?_
    rcases Moment.polls_round hround hpolls with hirq | ⟨hreti, c, hchain, i, hservice⟩
    · rw [hentered] at hirq
      cases hirq
    · have hserves := ((hbefore c hchain).service i hservice).1
      rw [← Cpu.peripherals_of_chain hchain] at hserves
      exact hidle hreti i hserves

end Cpu.Leads

/-- In every run from a reset service is nested. -/
theorem Cpu.Chronicle.service_nested [Peripheral δ] (horderly : Orderly δ) {cpu : Cpu δ}
    {log : List (Moment δ)} (h : cpu.Chronicle Request.OnlyAsks log) : Nested log := by
  obtain ⟨chain, old, hlog⟩ := h.leads
  exact hlog.nested horderly (tracks_resetWith horderly chain old)
    (not_serves_resetWith horderly chain old)

/-- The routine of the lower of two devices is interrupted by the upper one. -/
theorem Cpu.Chronicle.service_nested_two :
    let chain : DaisyChain TidyLatch :=
      { devices := [.ofVector 0x08, .ofVector 0x10], length_le := by decide }
    let start := ({} : Cpu TidyLatch).resetWith (some chain)
    let lower := start.modifyDevice 1 TidyLatch.ask
    let bus := ((Bus.Flat.load 0 [0x31, 0x40, 0, 0xFB] {}).load 0x08 [0xED, 0x4D]).load 0x10 [0xFB, 0, 0xED, 0x4D]
    let m : Machine Bus.Flat TidyLatch := ⟨lower.setIrqLine .assert, bus⟩
    let half := (m.run 31).2
    let upper := half.cpu.modifyDevice 0 TidyLatch.ask
    let next : Machine Bus.Flat TidyLatch := ⟨upper.setIrqLine .assert, half.bus⟩
    let first := [⟨start, .request (.modifyDevice 1 TidyLatch.ask), lower⟩] ++
      [⟨lower, .request (.setIrqLine .assert), m.cpu⟩] ++ m.moments 31
    let log := first ++ [⟨half.cpu, .request (.modifyDevice 0 TidyLatch.ask), upper⟩] ++
      [⟨upper, .request (.setIrqLine .assert), next.cpu⟩] ++ next.moments 49
    Orderly TidyLatch ∧ (next.run 49).2.cpu.Chronicle Request.OnlyAsks log ∧
    log.filterMap Moment.entered? = [1, 0] ∧
    (next.run 49).2.cpu.peripherals.map (fun d => (d.val.entries, d.val.retis)) = [(1, 1), (1, 1)] ∧
    Nested log := by
  intro chain start lower bus m half upper next first log
  have hassert : (Request.setIrqLine .assert : Request TidyLatch).OnlyAsks := rfl
  have hlower := (Chronicle.reset (some chain) {}).reach 1 _ (TidyLatch.onlyAsks_ask 1)
  have hhalf := (hlower.drive .assert hassert).run bus 31
  have hupper := hhalf.reach 0 _ (TidyLatch.onlyAsks_ask 0)
  have hlog : (next.run 49).2.cpu.Chronicle Request.OnlyAsks log :=
    (hupper.drive .assert hassert).run half.bus 49
  exact ⟨TidyLatch.orderly, hlog, by decide +kernel, by decide +kernel,
    service_nested TidyLatch.orderly hlog⟩

end Z80
