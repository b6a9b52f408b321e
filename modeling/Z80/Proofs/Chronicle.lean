import Z80.Host
import Z80.Proofs.Rounds

/-!
What has happened to a processor since a reset, moment by moment. A moment is
a round of a run or a request that was served. Where one run ends and the next
one begins leaves no trace.
-/
namespace Z80

variable {σ δ : Type}

inductive Event (δ : Type)
  | round (r : Round)
  | request (r : Request δ)

structure Moment (δ : Type) where
  before : Cpu δ
  event : Event δ
  after : Cpu δ

namespace Moment

/-- The round of a run, if the moment is one. -/
def round? (x : Moment δ) : Option Round :=
  match x.event with
  | .round r => some r
  | .request _ => none

/-- The instruction that was executed, if the moment is one. -/
def instr? (x : Moment δ) : Option Instr :=
  x.round?.bind Round.instr?

theorem event_of_round? {x : Moment δ} {r : Round} (h : x.round? = some r) :
    x.event = .round r := by
  simp only [round?] at h
  split at h
  · cases h
    assumption
  · cases h

/-- The event has led from the one state to the other. -/
def Lawful [Peripheral δ] (allowed : Request δ → Prop) (x : Moment δ) : Prop :=
  match x.event with
  | .round r => r.Takes x.before x.after
  | .request r => allowed r ∧ (x.before.serve r).2 = x.after

theorem Lawful.takes [Peripheral δ] {allowed : Request δ → Prop} {x : Moment δ} {r : Round}
    (h : x.Lawful allowed) (hr : x.round? = some r) : r.Takes x.before x.after := by
  simpa only [Lawful, event_of_round? hr] using h

end Moment

/-- A log of moments that leads from one state to another. -/
inductive Cpu.Leads [Peripheral δ] (allowed : Request δ → Prop) :
    Cpu δ → List (Moment δ) → Cpu δ → Prop
  | nil (cpu : Cpu δ) : Leads allowed cpu [] cpu
  | cons {x : Moment δ} {log : List (Moment δ)} {last : Cpu δ} :
    x.Lawful allowed → Leads allowed x.after log last → Leads allowed x.before (x :: log) last

namespace Cpu.Leads

variable [Peripheral δ] {allowed : Request δ → Prop} {first mid last : Cpu δ}
  {log future : List (Moment δ)} {x : Moment δ}

theorem single (h : x.Lawful allowed) : Leads allowed x.before [x] x.after :=
  .cons h (.nil _)

theorem append (h : Leads allowed first log mid) (hfuture : Leads allowed mid future last) :
    Leads allowed first (log ++ future) last := by
  induction h with
  | nil _ => exact hfuture
  | cons hx _ ih => exact .cons hx (ih hfuture)

theorem split (h : Leads allowed first (log ++ future) last) :
    ∃ mid, Leads allowed first log mid ∧ Leads allowed mid future last := by
  induction log generalizing first with
  | nil => exact ⟨first, .nil _, h⟩
  | cons _ _ ih =>
      cases h with
      | cons hx hrest =>
          obtain ⟨mid, hlog, hfuture⟩ := ih hrest
          exact ⟨mid, .cons hx hlog, hfuture⟩

theorem uncons (h : Leads allowed first (x :: log) last) :
    first = x.before ∧ x.Lawful allowed ∧ Leads allowed x.after log last := by
  cases h with
  | cons hx hrest => exact ⟨rfl, hx, hrest⟩

/-- The log up to one of its moments, the moment and the rest. -/
theorem focus (h : Leads allowed first (log ++ x :: future) last) :
    Leads allowed first log x.before ∧ x.Lawful allowed ∧ Leads allowed x.after future last := by
  obtain ⟨mid, hpast, hrest⟩ := h.split
  obtain ⟨rfl, hx, hfuture⟩ := hrest.uncons
  exact ⟨hpast, hx, hfuture⟩

theorem eq_of_nil (h : Leads allowed first [] last) : first = last := by
  cases h with
  | nil _ => rfl

theorem unsnoc (h : Leads allowed first (log ++ [x]) last) :
    Leads allowed first log x.before ∧ x.Lawful allowed ∧ x.after = last := by
  obtain ⟨hpast, hx, hnil⟩ := h.focus
  exact ⟨hpast, hx, hnil.eq_of_nil⟩

theorem eq_after (h : Leads allowed first log last) (hx : x ∈ log.getLast?) : last = x.after := by
  obtain ⟨past, rfl⟩ := List.getLast?_eq_some_iff.mp hx
  exact h.unsnoc.2.2.symm

/-- What every allowed moment keeps is kept by the whole log. -/
theorem invariant {P : Cpu δ → Prop}
    (hstep : ∀ x : Moment δ, x.Lawful allowed → P x.before → P x.after)
    (h : Leads allowed first log last) (hfirst : P first) : P last := by
  induction h with
  | nil _ => exact hfirst
  | cons hx _ ih => exact ih (hstep _ hx hfirst)

end Cpu.Leads

/-- The rounds of a run, in order. -/
def Machine.moments [Bus σ] [Peripheral δ] (remaining : Nat) (m : Machine σ δ) :
    List (Moment δ) :=
  if h : 0 < remaining then
    have := Exec.four_le_advance h m
    let r := Exec.advance remaining m
    let next := r.2.elapse r.1
    ⟨m.cpu, .round m.round, next.cpu⟩ :: moments (remaining - r.1) next
  else
    []
termination_by remaining
decreasing_by omega

/-- The processor has come to its state since a reset by the moments of the
log: by runs on any bus and by requests that are allowed. -/
inductive Cpu.Chronicle [Peripheral δ] (allowed : Request δ → Prop) :
    List (Moment δ) → Cpu δ → Prop
  | reset (chain : Option (DaisyChain δ)) (cpu : Cpu δ) :
    Chronicle allowed [] (cpu.resetWith chain)
  | run {σ : Type} [Bus σ] {log : List (Moment δ)} {cpu : Cpu δ} (bus : σ)
      (budget : BitVec 32) :
    Chronicle allowed log cpu →
      Chronicle allowed (log ++ (Machine.mk cpu bus).moments budget.toNat)
        ((Machine.mk cpu bus).run budget).2.cpu
  | serve {log : List (Moment δ)} {cpu next : Cpu δ} {r : Request δ} :
    Chronicle allowed log cpu → allowed r → (cpu.serve r).2 = next →
      Chronicle allowed (log ++ [⟨cpu, .request r, next⟩]) next

namespace Machine

variable [Bus σ] [Peripheral δ]

theorem moments_zero (m : Machine σ δ) : m.moments 0 = [] := by
  rw [moments]
  rfl

theorem moments_of_pos {remaining : Nat} (h : 0 < remaining) (m : Machine σ δ) :
    m.moments remaining =
      let r := Exec.advance remaining m
      let next := r.2.elapse r.1
      ⟨m.cpu, .round m.round, next.cpu⟩ :: next.moments (remaining - r.1) := by
  rw [moments]
  simp only [h, ↓reduceDIte]

theorem leads_moments (allowed : Request δ → Prop) (remaining : Nat) (m : Machine σ δ) :
    Cpu.Leads allowed m.cpu (m.moments remaining) (m.runFor remaining).cpu := by
  induction remaining, m using runFor_induction with
  | done m =>
      rw [moments_zero, runFor_zero]
      exact .nil _
  | round remaining m hpos ih =>
      rw [moments_of_pos hpos, runFor_of_pos hpos]
      exact .cons (x := ⟨_, .round _, _⟩) (takes_round remaining m) ih

end Machine

theorem Cpu.Chronicle.leads [Peripheral δ] {allowed : Request δ → Prop}
    {log : List (Moment δ)} {cpu : Cpu δ} (h : cpu.Chronicle allowed log) :
    ∃ chain old, Leads allowed (resetWith chain old) log cpu := by
  induction h with
  | reset chain cpu => exact ⟨chain, cpu, .nil _⟩
  | run bus budget _ ih =>
      obtain ⟨chain, old, hlog⟩ := ih
      exact ⟨chain, old, hlog.append (Machine.leads_moments allowed budget.toNat ⟨_, bus⟩)⟩
  | serve _ hallowed hserve ih =>
      obtain ⟨chain, old, hlog⟩ := ih
      exact ⟨chain, old, hlog.append (.single (x := ⟨_, .request _, _⟩) ⟨hallowed, hserve⟩)⟩

end Z80
