import Z80.Proofs.ChainSteps

/-!
Requests for an interrupt and what becomes of them. Every edge of the NMI line
is served once, unless it comes while another one is still waiting, and it is
served as soon as it may be. Without a chain a held IRQ line is good for one
interrupt.
-/
namespace Z80

variable {δ : Type}

namespace Moment

def isNmi (x : Moment δ) : Bool :=
  x.round? = some .nmi

def isIrq (x : Moment δ) : Bool :=
  x.round? = some .irq

/-- The host moves the NMI line away from `clear`. -/
def isEdge (x : Moment δ) : Bool :=
  match x.event with
  | .request (.setNmiLine s) => x.before.nmiLine == .clear && s.isActive
  | _ => false

/-- An edge of the NMI line while another one is still waiting. -/
def isLateEdge (x : Moment δ) : Bool :=
  x.isEdge && x.before.nmiPending

/-- The host sets the level of the IRQ line. -/
def drivesIrq (x : Moment δ) : Bool :=
  match x.event with
  | .request (.setIrqLine _) => true
  | _ => false

theorem isIrq_iff {x : Moment δ} : x.isIrq ↔ x.round? = some .irq :=
  decide_eq_true_iff

end Moment

/-- The processor has no chain, or one without devices. -/
def Cpu.Unchained (cpu : Cpu δ) : Prop :=
  ∀ chain ∈ cpu.chain, chain.isEmpty

/-- Every request in a log is served as it should be. -/
structure Accounted (log : List (Moment δ)) : Prop where
  /-- At any moment the NMIs that were taken, the one that is pending and the
  late edges are all the edges so far. -/
  edges : ∀ past x future, log = past ++ x :: future →
    (past ++ [x]).countP Moment.isNmi + x.after.nmiPending.toNat +
        (past ++ [x]).countP Moment.isLateEdge =
      (past ++ [x]).countP Moment.isEdge
  /-- A pending NMI waits until it is taken, and it is taken in the first round
  that does not come directly after an `EI`. -/
  pending : ∀ past x future, log = past ++ x :: future → x.before.nmiPending →
    (¬x.isNmi → x.after.nmiPending) ∧
    (¬Shadowed past → ∀ r ∈ x.round?, r = .nmi) ∧
    (Shadowed past → ∀ r ∈ x.round?, r.instr?.isSome)
  /-- A held IRQ line stays so up to the interrupt, the only one before the
  host sets the line again. -/
  held : ∀ past x mid future, log = past ++ x :: mid ++ future →
    x.event = .request (.setIrqLine .hold) → x.before.Unchained →
    (∀ y ∈ mid, ¬y.drivesIrq) → ∀ last ∈ (x :: mid).getLast?,
      mid.countP Moment.isIrq = 0 ∧ last.after.irqLine = .hold ∨
        mid.countP Moment.isIrq = 1 ∧ last.after.irqLine = .clear

namespace DaisyChain

theorem isEmpty_modifyDevice (i : Nat) (g : δ → δ) (c : DaisyChain δ) :
    (c.modifyDevice i g).isEmpty = c.isEmpty := by
  rw [Bool.eq_iff_iff]
  simp [isEmpty, modifyDevice]

theorem isEmpty_reti [Peripheral δ] (c : DaisyChain δ) : c.reti.isEmpty = c.isEmpty := by
  simp only [reti]
  split
  · rfl
  · exact isEmpty_modifyDevice ..

theorem isEmpty_onChain [Peripheral δ] (e : Event δ) {c : DaisyChain δ} (h : c.isEmpty) :
    (e.onChain c).isEmpty :=
  e.onChain_cases (P := fun c => c.isEmpty) h (fun _ hempty => absurd h hempty)
    (c.isEmpty_reti.trans h) h fun i g _ => (c.isEmpty_modifyDevice i g).trans h

end DaisyChain

namespace Cpu

theorem Unchained.irqRequested {cpu : Cpu δ} (h : cpu.Unchained) :
    cpu.irqRequested = cpu.irqLine.isActive := by
  simp only [Cpu.irqRequested]
  cases hchain : cpu.chain with
  | none => rfl
  | some chain => simp only [h chain hchain, if_true]

end Cpu

namespace Round.Takes

variable [Peripheral δ] {r : Round} {before after : Cpu δ}

theorem nmiPending (h : r.Takes before after) :
    after.nmiPending = if r = .nmi then false else before.nmiPending := by
  cases r with
  | nmi | irq | halt =>
      have hrest := congrArg Cpu.nmiPending h.rest
      exact hrest
  | instr op =>
      have hrest := congrArg Cpu.nmiPending h.rest
      simp [hrest, apply_ite Cpu.nmiPending, Cpu.retiChain]

theorem irqLine (h : r.Takes before after) :
    after.irqLine = if r = .irq then before.irqLine.taken else before.irqLine := by
  cases r with
  | nmi | irq | halt =>
      have hrest := congrArg Cpu.irqLine h.rest
      exact hrest
  | instr op =>
      have hrest := congrArg Cpu.irqLine h.rest
      simp [hrest, apply_ite Cpu.irqLine, Cpu.retiChain]

theorem pending_of_nmi (h : Round.nmi.Takes before after) : before.nmiPending :=
  (Cpu.boundary_eq_nmi.mp h.boundary).2

theorem eq_nmi (h : r.Takes before after) (hdelay : before.eiDelay = false)
    (hpending : before.nmiPending) : r = .nmi := by
  have hboundary := Cpu.boundary_eq_nmi.mpr ⟨hdelay, hpending⟩
  cases r with
  | nmi => rfl
  | irq | halt | instr _ => exact nomatch h.boundary.symm.trans hboundary

end Round.Takes

namespace Moment

variable [Peripheral δ] {x : Moment δ}

theorem Lawful.unchained (h : x.Lawful fun r => r.isRoutine) (hbefore : x.before.Unchained) :
    x.after.Unchained :=
  Cpu.forall_chain_map hbefore (fun _ hc => DaisyChain.isEmpty_onChain x.event hc) h.chain

/-- One moment keeps the books of the NMI line. -/
theorem Lawful.edge (h : x.Lawful fun r => r.isRoutine) :
    x.isNmi.toNat + x.after.nmiPending.toNat + x.isLateEdge.toNat =
      x.isEdge.toNat + x.before.nmiPending.toNat := by
  obtain ⟨before, event, after⟩ := x
  simp only [Lawful] at h
  cases event with
  | round r =>
      simp only [isNmi, isLateEdge, isEdge, round?, h.nmiPending]
      by_cases hr : r = .nmi
      · subst hr
        simp [h.pending_of_nmi]
      · simp [hr]
  | request r =>
      obtain ⟨hr, hserve⟩ := h
      cases r with
      | setNmiLine s =>
          cases hserve
          simp only [isNmi, isLateEdge, isEdge, round?, Cpu.serve, Cpu.setNmiLine]
          cases before.nmiPending <;> cases before.nmiLine == .clear && s.isActive <;> rfl
      | setIrqLine _ | setConfig _ | modifyDevice _ _ =>
          cases hserve
          simp [isNmi, isLateEdge, isEdge, round?, Cpu.serve, Cpu.setIrqLine, Cpu.modifyDevice]
      | _ => cases hr

/-- The IRQ line is changed by the interrupt alone, as long as the host leaves it. -/
theorem Lawful.irqLine (h : x.Lawful fun r => r.isRoutine) (hquiet : ¬x.drivesIrq) :
    x.after.irqLine = if x.isIrq then x.before.irqLine.taken else x.before.irqLine := by
  obtain ⟨before, event, after⟩ := x
  simp only [Lawful] at h
  cases event with
  | round r =>
      rw [h.irqLine]
      simp [isIrq, round?]
  | request r =>
      obtain ⟨hr, hserve⟩ := h
      cases r with
      | setIrqLine _ => exact absurd rfl hquiet
      | setNmiLine _ | setConfig _ | modifyDevice _ _ =>
          cases hserve
          rfl
      | _ => cases hr

theorem Lawful.isActive_of_irq (h : x.Lawful fun r => r.isRoutine)
    (hbefore : x.before.Unchained) (hirq : x.isIrq) : x.before.irqLine.isActive := by
  have htaken : Cpu.TookIrq x.before x.after := h.takes (isIrq_iff.mp hirq)
  obtain ⟨-, -, -, hrequested⟩ := Cpu.boundary_eq_irq.mp htaken.boundary
  rwa [hbefore.irqRequested] at hrequested

end Moment

namespace Cpu.Leads

variable [Peripheral δ] {first last : Cpu δ} {log : List (Moment δ)}

theorem edges (h : Leads (fun r => r.isRoutine) first log last) :
    log.countP Moment.isNmi + last.nmiPending.toNat + log.countP Moment.isLateEdge =
      log.countP Moment.isEdge + first.nmiPending.toNat := by
  induction h with
  | nil cpu => simp
  | @cons x log last hx _ ih =>
      have hedge := hx.edge
      have hone (b : Bool) : (if b then 1 else 0) = b.toNat := by cases b <;> rfl
      simp only [List.countP_cons, hone]
      omega

/-- A held line is taken once at the most. -/
theorem held (h : Leads (fun r => r.isRoutine) first log last) (hfirst : first.Unchained)
    (hline : first.irqLine = .hold) (hquiet : ∀ y ∈ log, ¬y.drivesIrq) :
    log.countP Moment.isIrq = 0 ∧ last.irqLine = .hold ∨
      log.countP Moment.isIrq = 1 ∧ last.irqLine = .clear := by
  induction log using List.reverseRecOn generalizing last with
  | nil =>
      rw [← h.eq_of_nil]
      exact .inl ⟨rfl, hline⟩
  | append_singleton log x ih =>
      obtain ⟨hpast, hx, rfl⟩ := h.unsnoc
      have hlog := ih hpast fun y hy => hquiet y (List.mem_append_left _ hy)
      have hafter := hx.irqLine (hquiet x (List.mem_append_right _ List.mem_cons_self))
      rw [List.countP_append, List.countP_singleton]
      cases hirq : x.isIrq with
      | false =>
          rw [hafter, hirq]
          exact hlog
      | true =>
          have hbefore := hpast.invariant (fun _ hx => hx.unchained) hfirst
          have hactive := hx.isActive_of_irq hbefore hirq
          rw [hirq] at hafter
          rcases hlog with ⟨hcount, hheld⟩ | ⟨-, hclear⟩
          · rw [hcount, hafter, hheld]
            exact .inr ⟨rfl, rfl⟩
          · rw [hclear] at hactive
            cases hactive

theorem accounted (h : Leads (fun r => r.isRoutine) first log last) (hfirst : first.Latched)
    (hdelay : first.eiDelay = false) (hpending : first.nmiPending = false) : Accounted log where
  edges := by
    rintro past x future rfl
    obtain ⟨hpast, hx, -⟩ := h.focus
    have hedges := (hpast.append (.single hx)).edges
    rwa [hpending] at hedges
  pending := by
    rintro past x future rfl hwaiting
    obtain ⟨hpast, hx, -⟩ := h.focus
    have hbefore := hpast.latched Request.writesState_of_isRoutine hfirst
    refine ⟨fun hnmi => ?_, fun hfree r hr => ?_, fun hshadow r hr => ?_⟩
    · have hedge := hx.edge
      rw [Moment.isLateEdge, hwaiting, Bool.and_true, Bool.eq_false_iff.mpr hnmi] at hedge
      simpa [Nat.add_comm] using hedge
    · have hei := mt (hpast.eiDelay_iff hdelay).mp hfree
      exact (hx.takes hr).eq_nmi (Bool.eq_false_iff.mpr hei) hwaiting
    · exact (hx.takes hr).isSome_instr? hbefore ((hpast.eiDelay_iff hdelay).mpr hshadow)
  held := by
    rintro past x mid future rfl hhold hchain hquiet z hz
    obtain ⟨now, hnow, -⟩ := h.split
    obtain ⟨-, hx, hmid⟩ := hnow.focus
    obtain rfl : now = z.after := (Leads.cons hx hmid).eq_after hz
    have hserve := hx
    simp only [Moment.Lawful, hhold] at hserve
    have hafter : x.before.setIrqLine .hold = x.after := hserve.2
    have hline : x.after.irqLine = .hold := hafter ▸ rfl
    exact hmid.held (hx.unchained hchain) hline hquiet

end Cpu.Leads

/-- In every run from a reset the requests are accounted for. -/
theorem Cpu.Chronicle.requests_accounted [Peripheral δ] {cpu : Cpu δ} {log : List (Moment δ)}
    (h : cpu.Chronicle (fun r => r.isRoutine) log) : Accounted log := by
  obtain ⟨chain, old, hlog⟩ := h.leads
  exact hlog.accounted (latched_resetWith chain old) rfl rfl

/-- A held IRQ line and two edges of a held NMI line. The second edge comes
after the line has fallen back, in the shadow of an `EI`. -/
theorem Cpu.Chronicle.requests_accounted_flat :
    let edge := ({} : Cpu StateLatch).setNmiLine .hold
    let held := edge.setIrqLine .hold
    let bus := Bus.Flat.load 0x66 [0xFB] {}
    let m : Machine Bus.Flat StateLatch := ⟨held, bus⟩
    let served := (m.run 12).2
    let again := served.cpu.setNmiLine .hold
    let next : Machine Bus.Flat StateLatch := ⟨again, served.bus⟩
    let first := [⟨{}, .request (.setNmiLine .hold), edge⟩] ++
      [⟨edge, .request (.setIrqLine .hold), held⟩] ++ m.moments 12
    let log := first ++ [⟨served.cpu, .request (.setNmiLine .hold), again⟩] ++ next.moments 24
    (next.run 24).2.cpu.Chronicle (fun r => r.isRoutine) log ∧
    (log.countP Moment.isEdge, log.countP Moment.isNmi, log.countP Moment.isIrq) = (2, 2, 1) ∧
    Accounted log := by
  intro edge held bus m served again next first log
  have hset (cpu : Cpu StateLatch) :
      (cpu.serve (.setNmiLine .hold)).2 = cpu.setNmiLine .hold := rfl
  have hedge : edge.Chronicle (fun r => r.isRoutine)
      [⟨{}, .request (.setNmiLine .hold), edge⟩] := .serve (.reset none {}) rfl (hset {})
  have hserved : served.cpu.Chronicle (fun r => r.isRoutine) first :=
    .run bus 12 (.serve hedge rfl rfl)
  have hagain : again.Chronicle (fun r => r.isRoutine)
      (first ++ [⟨served.cpu, .request (.setNmiLine .hold), again⟩]) :=
    .serve hserved rfl (hset served.cpu)
  have hlog : (next.run 24).2.cpu.Chronicle (fun r => r.isRoutine) log :=
    .run served.bus 24 hagain
  exact ⟨hlog, by decide +kernel, requests_accounted hlog⟩

end Z80
