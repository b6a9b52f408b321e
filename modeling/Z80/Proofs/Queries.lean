import Mathlib.Data.List.Nodup
import Z80.Daisy.StateLatch
import Z80.Query

/-!
Which paths are answered, and which are listed. The name of a register is read
in any mixture of upper and lower case, the paths of the flags and of the count
only as they are listed, and the slots of the daisy chain are answered without
being listed. For every other path the list tells exactly what is answered, and
a snapshot has it once.
-/
namespace Z80

namespace RegisterName

theorem mem_all (reg : RegisterName) : reg ∈ all := by
  cases reg <;> decide

theorem nodup_names : (all.map name).Nodup := by
  decide

theorem name_inj {reg other : RegisterName} : reg.name = other.name ↔ reg = other :=
  ⟨List.inj_on_of_nodup_map nodup_names reg.mem_all other.mem_all, congrArg name⟩

theorem toLower_name (reg : RegisterName) : reg.name.toLower = reg.name := by
  cases reg <;> decide +kernel

theorem ofName?_eq_some_iff {s : String} {reg : RegisterName} :
    ofName? s = some reg ↔ s.toLower = reg.name := by
  have hfound {other : RegisterName} (h : ofName? s = some other) : other.name = s.toLower := by
    have hname := List.find?_some h
    exact eq_of_beq hname
  constructor
  · intro h
    exact (hfound h).symm
  · intro h
    cases hfind : ofName? s with
    | none => exact absurd (beq_iff_eq.mpr h.symm) (List.find?_eq_none.mp hfind reg reg.mem_all)
    | some other => rw [name_inj.mp ((hfound hfind).trans h)]

/-- A name is shown with the number that is read under it. -/
theorem toNat_value {δ : Type} (reg : RegisterName) (cpu : Cpu δ) :
    (reg.value (cpu.register reg)).toNat = (cpu.register reg).toNat := by
  have hbyte (b : Byte) : (Word.ofByte b).low.toNat = (Word.ofByte b).toNat := by
    revert b
    decide +kernel
  have hbool (b : Bool) : (Word.ofBool b != 0).toNat = (Word.ofBool b).toNat := by
    cases b <;> rfl
  cases reg with
  | iff1 | iff2 | halt => exact hbool _
  | pc | sp | af | bc | de | hl | ix | iy | af' | bc' | de' | hl' | wz | prepc => rfl
  | ixh | ixl | iyh | iyl =>
      simp only [Cpu.register_ixh, Cpu.register_ixl, Cpu.register_iyh, Cpu.register_iyl]
      exact hbyte _
  | _ => exact hbyte _

end RegisterName

/-- The paths of the single flags. -/
def Flags.paths : List String :=
  ["flags.s", "flags.z", "flags.y", "flags.h", "flags.x", "flags.p", "flags.n", "flags.c"]

theorem Flags.isSome_named?_iff {path : String} : (named? path).isSome ↔ path ∈ paths := by
  constructor
  · intro h
    simp only [named?] at h
    split at h <;> first | decide | cases h
  · intro h
    simp only [paths, List.mem_cons, List.not_mem_nil, or_false] at h
    rcases h with rfl | rfl | rfl | rfl | rfl | rfl | rfl | rfl <;> rfl

namespace Cpu

variable {δ : Type}

/-- The paths that are read only as they stand in the list. -/
def fixedPaths : List String :=
  "cycles" :: Flags.paths

theorem toLower_of_mem_fixedPaths {path : String} (h : path ∈ fixedPaths) :
    path.toLower = path := by
  have hmap : fixedPaths.map String.toLower = fixedPaths.map id := by
    decide +kernel
  exact List.map_inj_left.mp hmap path h

theorem mem_fixedPaths_iff {path : String} :
    path ∈ fixedPaths ↔ path.toLower ∈ fixedPaths ∧ path = path.toLower := by
  constructor
  · intro h
    have hlower := toLower_of_mem_fixedPaths h
    exact ⟨hlower.symm ▸ h, hlower.symm⟩
  · rintro ⟨h, heq⟩
    exact heq ▸ h

theorem name_not_mem_fixedPaths (reg : RegisterName) : reg.name ∉ fixedPaths := by
  cases reg <;> decide

theorem nodup_queryPaths : queryPaths.Nodup := by
  decide

theorem mem_queryPaths_iff {path : String} :
    path ∈ queryPaths ↔
      path ∈ fixedPaths ∨ ∃ reg : RegisterName, reg.daisySlot = none ∧ reg.name = path := by
  have hperm : queryPaths.Perm
      (fixedPaths ++ (RegisterName.all.filter (·.daisySlot.isNone)).map RegisterName.name) := by
    decide
  simp only [hperm.mem_iff, List.mem_append, List.mem_map, List.mem_filter, RegisterName.mem_all,
    true_and, Option.isNone_iff_eq_none]

section

variable {path : String} (cpu : Cpu δ)

/-- What is asked by the name of a register is answered by the register. -/
theorem query_of_name {reg : RegisterName} (h : path.toLower = reg.name) :
    cpu.query path = some (reg.value (cpu.register reg)) := by
  have hfixed : path ∉ fixedPaths := by
    intro hmem
    rw [toLower_of_mem_fixedPaths hmem] at h
    exact name_not_mem_fixedPaths reg (h ▸ hmem)
  simp only [fixedPaths, List.mem_cons, not_or, ← Flags.isSome_named?_iff,
    Option.not_isSome_iff_eq_none] at hfixed
  simp only [query, hfixed.2, if_neg hfixed.1, RegisterName.ofName?_eq_some_iff.mpr h,
    Option.map_some]

theorem isSome_query_of_mem (h : path ∈ fixedPaths) : (cpu.query path).isSome := by
  simp only [fixedPaths, List.mem_cons, ← Flags.isSome_named?_iff, Option.isSome_iff_exists] at h
  rcases h with rfl | ⟨flag, hflag⟩
  · rfl
  · simp only [query, hflag, Option.isSome_some]

theorem isSome_query_iff :
    (cpu.query path).isSome ↔
      path ∈ fixedPaths ∨ ∃ reg : RegisterName, reg.name = path.toLower := by
  constructor
  · intro h
    simp only [fixedPaths, List.mem_cons, ← Flags.isSome_named?_iff]
    simp only [query] at h
    split at h
    · rename_i flag hflag
      exact .inl (.inr (Option.isSome_of_eq_some hflag))
    · split at h
      · rename_i hcycles
        exact .inl (.inl hcycles)
      · rw [Option.isSome_map, Option.isSome_iff_exists] at h
        obtain ⟨reg, hreg⟩ := h
        exact .inr ⟨reg, (RegisterName.ofName?_eq_some_iff.mp hreg).symm⟩
  · rintro (h | ⟨reg, hreg⟩)
    · exact cpu.isSome_query_of_mem h
    · rw [cpu.query_of_name hreg.symm]
      rfl

/-- An answer does not change with the case of the letters. -/
theorem query_toLower (h : (cpu.query path).isSome) :
    cpu.query path.toLower = cpu.query path := by
  rcases cpu.isSome_query_iff.mp h with hmem | ⟨reg, hreg⟩
  · rw [toLower_of_mem_fixedPaths hmem]
  · have hlower : path.toLower.toLower = reg.name := by
      rw [← hreg, reg.toLower_name]
    rw [cpu.query_of_name hlower, cpu.query_of_name hreg.symm]

end

/-- The list is wrong about the path: a slot of the chain is answered without
being listed, and what is read only as it stands is not answered in other
letters. -/
inductive Strays (path : String) : Prop
  | slot (reg : RegisterName) : reg.daisySlot.isSome → reg.name = path.toLower → Strays path
  | letters : path.toLower ∈ fixedPaths → path ≠ path.toLower → Strays path

section

variable {path : String}

theorem mem_queryPaths_of_name {reg : RegisterName} (h : reg.name = path) :
    path ∈ queryPaths ↔ reg.daisySlot = none := by
  rw [mem_queryPaths_iff]
  constructor
  · rintro (hfixed | ⟨other, hslot, hother⟩)
    · exact absurd (h ▸ hfixed) (name_not_mem_fixedPaths reg)
    · rwa [RegisterName.name_inj.mp (h.trans hother.symm)]
  · intro hslot
    exact .inr ⟨reg, hslot, h⟩

theorem strays_of_name {reg : RegisterName} (h : reg.name = path.toLower) :
    Strays path ↔ reg.daisySlot.isSome := by
  constructor
  · rintro (⟨other, hslot, hother⟩ | ⟨hfixed, -⟩)
    · rwa [RegisterName.name_inj.mp (h.trans hother.symm)]
    · exact absurd (h ▸ hfixed) (name_not_mem_fixedPaths reg)
  · intro hslot
    exact .slot reg hslot h

theorem strays_of_no_name (h : ∀ reg : RegisterName, reg.name ≠ path.toLower) :
    Strays path ↔ path.toLower ∈ fixedPaths ∧ path ≠ path.toLower := by
  constructor
  · rintro (⟨reg, -, hreg⟩ | ⟨hfixed, hne⟩)
    · exact absurd hreg (h reg)
    · exact ⟨hfixed, hne⟩
  · rintro ⟨hfixed, hne⟩
    exact .letters hfixed hne

theorem isSome_query_iff_listed (cpu : Cpu δ) :
    ((cpu.query path).isSome ↔ path.toLower ∈ queryPaths) ↔ ¬Strays path := by
  by_cases hname : ∃ reg : RegisterName, reg.name = path.toLower
  · obtain ⟨reg, hreg⟩ := hname
    rw [cpu.query_of_name hreg.symm, mem_queryPaths_of_name hreg, strays_of_name hreg]
    simp only [Option.isSome_some, true_iff, Option.not_isSome_iff_eq_none]
  · rw [isSome_query_iff, mem_queryPaths_iff, strays_of_no_name (not_exists.mp hname)]
    have hlisted : ¬∃ reg : RegisterName, reg.daisySlot = none ∧ reg.name = path.toLower :=
      fun ⟨reg, _, h⟩ => hname ⟨reg, h⟩
    simp only [hname, hlisted, or_false, @mem_fixedPaths_iff path]
    tauto

end

section

variable (cpu : Cpu δ)

theorem isSome_query_of_listed {path : String} (h : path ∈ queryPaths) :
    (cpu.query path).isSome := by
  rw [isSome_query_iff]
  rcases mem_queryPaths_iff.mp h with hfixed | ⟨reg, -, rfl⟩
  · exact .inl hfixed
  · exact .inr ⟨reg, reg.toLower_name.symm⟩

theorem mem_snapshot_iff {path : String} {v : Value} :
    (path, v) ∈ cpu.snapshot ↔ path ∈ queryPaths ∧ cpu.query path = some v := by
  simp only [snapshot, List.mem_filterMap, Option.map_eq_some_iff, Prod.mk.injEq]
  constructor
  · rintro ⟨_, hlisted, _, hquery, rfl, rfl⟩
    exact ⟨hlisted, hquery⟩
  · rintro ⟨hlisted, hquery⟩
    exact ⟨path, hlisted, v, hquery, rfl, rfl⟩

theorem map_fst_snapshot : cpu.snapshot.map Prod.fst = queryPaths := by
  have hentry : ∀ path ∈ queryPaths,
      ((cpu.query path).map fun v => (path, v)).map Prod.fst = some path := by
    intro path h
    obtain ⟨v, hv⟩ := Option.isSome_iff_exists.mp (cpu.isSome_query_of_listed h)
    rw [hv]
    rfl
  rw [snapshot, List.map_filterMap, List.filterMap_congr hentry, List.filterMap_some]

end

/-- For every path but the strays the list tells whether it is answered. A
snapshot has the answer of each of them once, and nothing else. In letters of
any case the name of a register is answered, by the number that is read from
the register. -/
theorem query_listed (cpu : Cpu δ) (path : String) :
    (((cpu.query path).isSome ↔ path.toLower ∈ queryPaths) ↔ ¬Strays path) ∧
    (∀ v, cpu.query path = some v → ¬Strays path →
      (path.toLower, v) ∈ cpu.snapshot ∧ (cpu.snapshot.map Prod.fst).count path.toLower = 1) ∧
    (cpu.snapshot.map Prod.fst = queryPaths ∧
      ∀ entry ∈ cpu.snapshot, cpu.query entry.1 = some entry.2) ∧
    (∀ reg : RegisterName, path.toLower = reg.name →
      ∃ v, cpu.query path = some v ∧ v.toNat = (cpu.register reg).toNat) := by
  refine ⟨cpu.isSome_query_iff_listed, ?_, ⟨cpu.map_fst_snapshot, ?_⟩, ?_⟩
  · intro v hv hstrays
    have hanswered := Option.isSome_of_eq_some hv
    have hlisted := (cpu.isSome_query_iff_listed.mpr hstrays).mp hanswered
    refine ⟨cpu.mem_snapshot_iff.mpr ⟨hlisted, ?_⟩, ?_⟩
    · rw [cpu.query_toLower hanswered, hv]
    · rw [map_fst_snapshot]
      exact List.count_eq_one_of_mem nodup_queryPaths hlisted
  · rintro ⟨path, v⟩ hentry
    exact (cpu.mem_snapshot_iff.mp hentry).2
  · intro reg hreg
    exact ⟨_, cpu.query_of_name hreg, reg.toNat_value cpu⟩

/-- A slot is answered and not listed; a flag is listed and not answered in
capitals. -/
theorem strays_answered :
    let cpu : Cpu StateLatch := {}
    cpu.query "dc0" = some (.byte 0) ∧ "dc0".toLower ∉ queryPaths ∧
      cpu.query "FLAGS.Z" = none ∧ "FLAGS.Z".toLower ∈ queryPaths := by
  have hslot : "dc0".toLower = RegisterName.dc0.name := by
    decide +kernel
  have hflag : "FLAGS.Z".toLower = "flags.z" := by
    decide +kernel
  intro cpu
  refine ⟨cpu.query_of_name hslot, ?_, ?_, ?_⟩
  · rw [hslot]
    decide
  · decide +kernel
  · rw [hflag]
    decide

end Cpu
end Z80
