import LamiaAtrium.Mem.Correctness.Regions

/-!
# `Mem.Correctness.Space` — where the bytes of a region go

An address that `liballoc` has once put into a region moves between the symbol table and the free list. First
fit only cuts regions in two (`cover_subset_carve`), and `libfree` puts what it takes out of the table on the
list. What `liballoc` finds in the register of its result it overwrites.

`space_kept`: an address stays in some region along every continuation that does not overwrite the last region
it is in. `overwritten_region_lost` is the other case.
-/

namespace LamiaAtrium

open Regions

/-- The addresses in some region, live or free. -/
def heldSpace (mm : MmStruct) : Set ℕ := space (liveSets mm) (sets (freeRegions mm))

/-! ## First fit loses nothing -/

theorem cover_subset_cloneNext (rgit : VmRgStruct) (l : List VmRgStruct) :
    cover (sets l) ⊆ cover (sets (cloneNext rgit l)) := by
  cases l with
  | nil =>
    rintro a ⟨S, hS, -⟩
    exact absurd hS List.not_mem_nil
  | cons nextrg rest => exact Set.Subset.refl _

/-- A region is made up of its first `size` bytes and the rest, even when the sum wraps around. -/
theorem bytes_subset_cut (rg : VmRgStruct) (size : AddrT) :
    rg.bytes ⊆ VmRgStruct.bytes ⟨rg.rgStart, rg.rgStart + size⟩ ∪ VmRgStruct.bytes ⟨rg.rgStart + size, rg.rgEnd⟩ := by
  rintro a ⟨hstart, hend⟩
  rcases Nat.lt_or_ge a (rg.rgStart + size).toNat with hlt | hge
  · exact .inl ⟨hstart, hlt⟩
  · exact .inr ⟨hge, hend⟩

/-- **What first fit takes and what it leaves** make up the list. -/
theorem cover_subset_carve (size : AddrT) (l : List VmRgStruct) :
    cover (sets l) ⊆ ((carve size l).1.elim ∅ VmRgStruct.bytes) ∪ cover (sets (carve size l).2) := by
  induction l with
  | nil =>
    rintro a ⟨S, hS, -⟩
    exact absurd hS List.not_mem_nil
  | cons rgit l ih =>
    rw [sets_cons, cover_cons]
    by_cases hfits : rgit.Fits size
    · rw [carve_cons_of_fits hfits]
      show rgit.bytes ∪ cover (sets l) ⊆ VmRgStruct.bytes ⟨rgit.rgStart, rgit.rgStart + size⟩ ∪ _
      have hcut := bytes_subset_cut rgit size
      by_cases hlt : rgit.rgStart + size < rgit.rgEnd
      · rw [if_pos hlt, sets_cons, cover_cons, ← Set.union_assoc]
        exact Set.union_subset_union_left _ hcut
      · -- nothing is left of the region
        have hrest : VmRgStruct.bytes ⟨rgit.rgStart + size, rgit.rgEnd⟩ = ∅ := bytes_of_le (BitVec.not_lt.mp hlt)
        rw [hrest, Set.union_empty] at hcut
        rw [if_neg hlt]
        exact Set.union_subset_union hcut (cover_subset_cloneNext rgit l)
    · -- the loop goes on
      rw [carve_cons_of_not_fits hfits]
      show rgit.bytes ∪ cover (sets l) ⊆ (carve size l).1.elim ∅ VmRgStruct.bytes ∪ _
      rw [sets_cons, cover_cons, Set.union_left_comm]
      exact Set.union_subset_union_right _ ih

/-- The region that an allocation records and the list after it make up the list before. -/
theorem cover_subset_newRegion (size : AddrT) (l : List VmRgStruct) :
    cover (sets l) ⊆ (newRegion size l).bytes ∪ cover (sets (carve (intSize size) l).2) := by
  intro a ha
  rcases cover_subset_carve (intSize size) l ha with hnew | hrest
  · cases hcarve : (carve (intSize size) l).1 with
    | none =>
      rw [hcarve] at hnew
      exact absurd hnew (Set.notMem_empty a)
    | some rg =>
      rw [hcarve] at hnew
      have hbytes : a ∈ rg.bytes := hnew
      left
      rw [newRegion, hcarve]
      by_cases hmax : rg.rgStart = -1
      · -- a region that starts at the last address is empty
        have hlast : rg.bytes = ∅ := bytes_of_le (by rw [hmax]; exact Nat.le_of_lt_succ rg.rgEnd.isLt)
        rw [hlast] at hbytes
        exact absurd hbytes (Set.notMem_empty a)
      · rw [Option.filter_some, if_pos (by simpa using hmax)]
        exact hbytes
  · exact .inr hrest

/-! ## What the calls lose -/

/-- The call does not overwrite the last region that byte `a` is in. -/
def Spares (x a : ℕ) (s : Kernel) : RegionCall → Prop
  | .alloc size r => ∀ mm, s.mm x = some mm → a ∈ liveSets mm r →
      (∃ j, j ≠ r ∧ a ∈ liveSets mm j) ∨ a ∈ cover (sets (freeRegions mm)) ∨
        a ∈ (newRegion size (freeRegions mm)).bytes
  | .free _       => True

/-- The one area of the process. -/
def HasArea (x : ℕ) (s : Kernel) : Prop := ∃ mm vma, s.mm x = some mm ∧ OneArea mm vma

section

variable {k : CharKind} {x : ℕ} {s t : Kernel}

theorem hasArea_step {c : RegionCall} (h : HasArea x s) (hst : RegionStep k x s c t) : HasArea x t := by
  obtain ⟨mm, vma, hm, harea⟩ := h
  cases hst with
  | @alloc sched size junk stat _ r hcall =>
    rw [liballoc_eq k sched hm harea size r junk] at hcall
    obtain ⟨rfl, rfl⟩ : 0 = stat ∧ s.setMm x (afterAlloc mm vma size r) = t := by simpa using hcall
    exact ⟨_, _, Kernel.mm_setMm_self .., ⟨rfl, harea.vmId, harea.sbrk⟩⟩
  | @free stat _ r hcall =>
    rw [libfree_eq hm harea r] at hcall
    split at hcall
    · obtain ⟨-, rfl⟩ : -1 = stat ∧ s = t := by simpa using hcall
      exact ⟨mm, vma, hm, harea⟩
    · obtain ⟨-, rfl⟩ : 0 = stat ∧ s.setMm x (afterFree mm vma r) = t := by simpa using hcall
      exact ⟨_, _, Kernel.mm_setMm_self .., ⟨rfl, harea.vmId, harea.sbrk⟩⟩

theorem hasArea_of_reachable {LinkOk : List VmRgStruct → Prop} (h : (regionSystem k x LinkOk).Reachable s) :
    HasArea x s := by
  refine h.invariant ?_ ?_
  · rintro s ⟨s₀, m₀, m, mram, link, -, hinit, rfl⟩
    obtain ⟨hmmap, -⟩ := initMm_area hinit
    exact ⟨m, vma0 link, Kernel.mm_setMm_self .., hmmap, rfl, rfl⟩
  · intro s c t hs hst
    exact hasArea_step hs hst

/-- **One call** that spares a byte keeps it. -/
theorem space_step {a : ℕ} {c : RegionCall} (h : HasArea x s) (hst : RegionStep k x s c t) (hspares : Spares x a s c)
    {mm mm' : MmStruct} (hm : s.mm x = some mm) (hm' : t.mm x = some mm') (ha : a ∈ heldSpace mm) :
    a ∈ heldSpace mm' := by
  obtain ⟨mm₀, vma, hm₀, harea⟩ := h
  obtain rfl : mm₀ = mm := Option.some.inj (hm₀.symm.trans hm)
  cases hst with
  | @alloc sched size junk stat _ r hcall =>
    rw [liballoc_eq k sched hm harea size r junk] at hcall
    obtain ⟨-, rfl⟩ : 0 = stat ∧ s.setMm x (afterAlloc mm₀ vma size r) = t := by simpa using hcall
    obtain rfl := Option.some.inj ((Kernel.mm_setMm_self ..).symm.trans hm')
    have harea' : OneArea (afterAlloc mm₀ vma size r)
        { vma with vmFreergList := (carve (intSize size) vma.vmFreergList).2 } :=
      ⟨rfl, harea.vmId, harea.sbrk⟩
    have hr := hspares mm₀ hm
    rw [heldSpace, harea.freeRegions_eq] at ha
    rw [harea.freeRegions_eq] at hr
    rw [heldSpace, harea'.freeRegions_eq, afterAlloc, liveSets_set]
    exact space_take (cover_subset_newRegion size vma.vmFreergList) ha hr
  | @free stat _ r hcall =>
    rw [libfree_eq hm harea r] at hcall
    split at hcall
    · obtain ⟨-, rfl⟩ : -1 = stat ∧ s = t := by simpa using hcall
      obtain rfl : mm₀ = mm' := Option.some.inj (hm.symm.trans hm')
      exact ha
    · obtain ⟨-, rfl⟩ : 0 = stat ∧ s.setMm x (afterFree mm₀ vma r) = t := by simpa using hcall
      obtain rfl := Option.some.inj ((Kernel.mm_setMm_self ..).symm.trans hm')
      rw [heldSpace, harea.freeRegions_eq] at ha
      by_cases hempty : (mm₀.symrgtbl.get r).rgEnd ≤ (mm₀.symrgtbl.get r).rgStart
      · -- an empty region is not put on the list
        have harea' : OneArea (afterFree mm₀ vma r) vma := by
          refine ⟨?_, harea.vmId, harea.sbrk⟩
          rw [afterFree, if_pos hempty]
        rw [heldSpace, harea'.freeRegions_eq, afterFree, liveSets_set, bytes_of_le (BitVec.le_refl _)]
        have hr : liveSets mm₀ r = ∅ := bytes_of_le hempty
        exact space_drop hr ha
      · have harea' : OneArea (afterFree mm₀ vma r)
            { vma with vmFreergList := mm₀.symrgtbl.get r :: vma.vmFreergList } := by
          refine ⟨?_, harea.vmId, harea.sbrk⟩
          rw [afterFree, if_neg hempty]
        rw [heldSpace, harea'.freeRegions_eq, afterFree, liveSets_set, bytes_of_le (BitVec.le_refl _)]
        exact space_release r ha

end

/-! ## Every run -/

/-- **No byte is lost** along a continuation whose calls do not overwrite the last region it is in. -/
theorem space_kept (k : CharKind) (x a : ℕ) (s t : Kernel) (hs : (regionSystem k x fun _ => True).Reachable s)
    (hst : ((regionSystem k x fun _ => True).guard (Spares x a)).Steps s t) (mm mm' : MmStruct)
    (hm : s.mm x = some mm) (hm' : t.mm x = some mm') (ha : a ∈ heldSpace mm) : a ∈ heldSpace mm' := by
  induction hst generalizing mm' with
  | refl =>
    obtain rfl : mm = mm' := Option.some.inj (hm.symm.trans hm')
    exact ha
  | @tail u v hsu huv ih =>
    obtain ⟨c, hstep, hspares⟩ := huv
    have hu : HasArea x u := by
      have hsteps : (regionSystem k x fun _ => True).Steps s u :=
        Relation.ReflTransGen.mono (fun _ _ ⟨c, hc⟩ => ⟨c, hc.1⟩) _ _ hsu
      exact hasArea_of_reachable (hs.steps hsteps)
    obtain ⟨mu, -, hmu, -⟩ := id hu
    exact space_step hu hstep hspares hmu hm' (ih mu hmu)

/-- The process of `oneFrame` has put 300 bytes into register 0. -/
theorem three_hundred : ∃ (s : Kernel) (m : MmStruct), (regionSystem .signed 0 fun _ => True).Reachable s ∧
    s.mm 0 = some m ∧ OneArea m (vma0 []) ∧ m.symrgtbl.get regA = ⟨0, 300⟩ ∧
    (∀ j, j ≠ regA → m.symrgtbl.get j = ⟨0, 0⟩) ∧ 200 ∈ liveSets m regA := by
  obtain ⟨m₀, m, mram, hinit, harea, hsym⟩ := initMm_oneFrame
  have h₀ : (regionSystem .signed 0 fun _ => True).Reachable (Kernel.setMm { oneFrame with mram } 0 m) :=
    .init ⟨oneFrame, m₀, m, mram, [], trivial, hinit, rfl⟩
  have hm : (Kernel.setMm { oneFrame with mram } 0 m).mm 0 = some m := Kernel.mm_setMm_self ..
  have h₁ := h₀.step (.alloc (liballoc_eq .signed .static hm harea 300 regA 0))
  have hget : (afterAlloc m (vma0 []) 300 regA).symrgtbl.get regA = ⟨0, 300⟩ := by
    rw [afterAlloc, get_set, if_pos rfl]
    decide
  refine ⟨_, _, h₁, Kernel.mm_setMm_self .., ⟨rfl, rfl, rfl⟩, hget, fun j hj => ?_, ?_⟩
  · rw [afterAlloc, get_set, if_neg hj, hsym]
    exact Vector.getElem_replicate j.isLt
  · rw [liveSets, hget]
    constructor <;> decide

/-- Register 0 gives its 300 bytes back. -/
theorem space_kept_free : ∃ (t : Kernel) (mm : MmStruct), t.mm 0 = some mm ∧ mm.symrgtbl.get regA = ⟨0, 0⟩ ∧
    200 ∈ heldSpace mm := by
  obtain ⟨s, m, hs, hm, harea, hget, -, hlive⟩ := three_hundred
  have hfree := libfree_eq hm harea regA
  rw [hget, if_neg (by decide)] at hfree
  refine ⟨s.setMm 0 (afterFree m (vma0 []) regA), afterFree m (vma0 []) regA, Kernel.mm_setMm_self .., ?_, ?_⟩
  · rw [afterFree, get_set, if_pos rfl]
  · exact space_kept .signed 0 200 s _ hs (.single ⟨.free regA, .free hfree, trivial⟩) m _ hm
      (Kernel.mm_setMm_self ..) (.inl ⟨regA, hlive⟩)

/-- **A second allocation into register 0** overwrites its 300 bytes with 100, and the rest is nowhere. -/
theorem overwritten_region_lost : ¬ ∀ (k : CharKind) (x a : ℕ) (s t : Kernel),
    (regionSystem k x fun _ => True).Reachable s → (regionSystem k x fun _ => True).Steps s t →
      ∀ mm mm' r, s.mm x = some mm → t.mm x = some mm' → a ∈ liveSets mm r → a ∈ heldSpace mm' := by
  intro hall
  obtain ⟨s, m, hs, hm, harea, -, hother, hlive⟩ := three_hundred
  have hcall := liballoc_eq .signed .static hm harea 100 regA 0
  have hheld := hall .signed 0 200 s (s.setMm 0 (afterAlloc m (vma0 []) 100 regA)) hs
    (.single ⟨.alloc 100 regA, .alloc hcall⟩) m _ regA hm (Kernel.mm_setMm_self ..) hlive
  rcases hheld with ⟨j, hj⟩ | ⟨S, hS, ha⟩
  · rw [liveSets, afterAlloc, get_set] at hj
    by_cases hjA : j = regA
    · rw [if_pos hjA] at hj
      exact absurd hj.2 (by decide)
    · rw [if_neg hjA, hother j hjA] at hj
      exact absurd hj.2 (Nat.not_lt_zero _)
  · -- the only region of the list is empty
    obtain rfl : S = VmRgStruct.bytes ⟨0, 0⟩ := List.mem_singleton.mp hS
    exact absurd ha.2 (Nat.not_lt_zero _)

end LamiaAtrium
