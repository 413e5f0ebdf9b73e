import LamiaAtrium.Lib.Lts
import LamiaAtrium.Lib.Regions
import LamiaAtrium.Mem.Libmem

/-!
# `Mem.Correctness.Regions` — live and free regions do not overlap

* `carve_spec`: first fit cuts the new region out of the free list, when no sum wraps around.
* `liballoc_eq` and `libfree_eq`: what the two calls do to the address space of their process.
* `regionSystem`: any sequence of the two calls after `init_mm`. `inc_vma_limit` never moves `sbrk`, so
  every allocation that finds no free region gets the addresses from 0 on; `GrowthClear` says when they are
  not in use.
* `regions_disjoint`: in runs that meet the condition, `RegionsDisjoint` holds in every state.
-/

namespace LamiaAtrium

open Regions

/-! ## Regions as sets of addresses -/

/-- The byte addresses of a region; none when it is empty or wraps around. -/
def VmRgStruct.bytes (rg : VmRgStruct) : Set ℕ := Set.Ico rg.rgStart.toNat rg.rgEnd.toNat

/-- The test of the first-fit loop. -/
def VmRgStruct.Fits (size : AddrT) (rg : VmRgStruct) : Prop := rg.rgStart + size ≤ rg.rgEnd

instance (size : AddrT) : DecidablePred (VmRgStruct.Fits size) := fun _ => inferInstanceAs (Decidable (_ ≤ _))

/-- The region that the first-fit loop stops at. -/
def firstFit (size : AddrT) (l : List VmRgStruct) : Option VmRgStruct := l.find? fun rg => rg.Fits size

theorem bytes_of_le {rg : VmRgStruct} (h : rg.rgEnd ≤ rg.rgStart) : rg.bytes = ∅ :=
  Set.Ico_eq_empty fun hlt => absurd hlt (Nat.not_lt.mpr h)

/-- The sets of a free list. -/
def sets (l : List VmRgStruct) : List (Set ℕ) := l.map VmRgStruct.bytes

@[simp] theorem sets_cons (rg : VmRgStruct) (l : List VmRgStruct) : sets (rg :: l) = rg.bytes :: sets l := rfl

/-- A region cut in two. -/
theorem bytes_split {a b e : AddrT} (hab : a ≤ b) (hbe : b ≤ e) :
    Disjoint (VmRgStruct.bytes ⟨a, b⟩) (VmRgStruct.bytes ⟨b, e⟩) ∧
      VmRgStruct.bytes ⟨a, b⟩ ∪ VmRgStruct.bytes ⟨b, e⟩ = VmRgStruct.bytes ⟨a, e⟩ := by
  constructor
  · exact Set.Ico_disjoint_Ico_same
  · exact Set.Ico_union_Ico_eq_Ico hab hbe

/-! ## First fit -/

theorem carve_cons_of_fits {size : AddrT} {rgit : VmRgStruct} (h : rgit.Fits size) (rest : List VmRgStruct) :
    carve size (rgit :: rest)
      = (some ⟨rgit.rgStart, rgit.rgStart + size⟩,
          if rgit.rgStart + size < rgit.rgEnd then ⟨rgit.rgStart + size, rgit.rgEnd⟩ :: rest
          else cloneNext rgit rest) := if_pos h

theorem carve_cons_of_not_fits {size : AddrT} {rgit : VmRgStruct} (h : ¬ rgit.Fits size)
    (rest : List VmRgStruct) : carve size (rgit :: rest) = ((carve size rest).1, rgit :: (carve size rest).2) :=
  if_neg h

theorem carve_of_not_fits {size : AddrT} {l : List VmRgStruct} (h : firstFit size l = none) :
    carve size l = (none, l) := by
  induction l with
  | nil => rfl
  | cons rg l ih =>
    rw [firstFit, List.find?_cons] at h
    split at h
    · cases h
    · rename_i hfit
      rw [carve_cons_of_not_fits (by simpa using hfit), ih h]

theorem cloneNext_spec (rgit : VmRgStruct) {l : List VmRgStruct} (hl : (sets l).Pairwise Disjoint) :
    (sets (cloneNext rgit l)).Pairwise Disjoint ∧ cover (sets (cloneNext rgit l)) ⊆ cover (sets l) := by
  cases l with
  | nil =>
    refine ⟨List.pairwise_singleton _ _, ?_⟩
    rw [cloneNext, sets_cons, bytes_of_le (BitVec.le_refl _), cover_cons, Set.empty_union]
  | cons nextrg rest => exact ⟨hl, Set.Subset.refl _⟩

/-- **First fit cuts its region out of the list**: the new region is the first `size` bytes of the first
    region with room, and the rest of the list still covers no address twice, and no new one. -/
theorem carve_spec {size : AddrT} {l : List VmRgStruct} {rg : VmRgStruct} (hfit : firstFit size l = some rg)
    (hwrap : rg.rgStart.toNat + size.toNat < 2 ^ 64) (hl : (sets l).Pairwise Disjoint) :
    (carve size l).1 = some ⟨rg.rgStart, rg.rgStart + size⟩ ∧
      (sets (⟨rg.rgStart, rg.rgStart + size⟩ :: (carve size l).2)).Pairwise Disjoint ∧
      cover (sets (⟨rg.rgStart, rg.rgStart + size⟩ :: (carve size l).2)) ⊆ cover (sets l) := by
  induction l with
  | nil => cases hfit
  | cons rgit l ih =>
    rw [sets_cons, pairwise_cons_iff] at hl
    rw [firstFit, List.find?_cons] at hfit
    by_cases hfits : rgit.Fits size
    · -- the loop stops here
      rw [decide_eq_true hfits] at hfit
      obtain rfl := Option.some.inj hfit
      have hle : rgit.rgStart ≤ rgit.rgStart + size := by
        rw [BitVec.le_def, BitVec.toNat_add, Nat.mod_eq_of_lt hwrap]
        exact Nat.le_add_right ..
      obtain ⟨hdisj, hunion⟩ := bytes_split hle hfits
      have hnew : VmRgStruct.bytes ⟨rgit.rgStart, rgit.rgStart + size⟩ ⊆ rgit.bytes := by
        rw [← hunion]
        exact Set.subset_union_left
      rw [carve_cons_of_fits hfits]
      refine ⟨rfl, ?_⟩
      by_cases hlt : rgit.rgStart + size < rgit.rgEnd
      · -- some of the region is left
        have hleft : VmRgStruct.bytes ⟨rgit.rgStart + size, rgit.rgEnd⟩ ⊆ rgit.bytes := by
          rw [← hunion]
          exact Set.subset_union_right
        rw [if_pos hlt, sets_cons, sets_cons, pairwise_cons_iff, pairwise_cons_iff, cover_cons,
          Set.disjoint_union_right]
        refine ⟨⟨⟨hdisj, hl.1.mono_left hnew⟩, hl.1.mono_left hleft, hl.2⟩, ?_⟩
        rw [cover_cons, cover_cons, ← Set.union_assoc, hunion, sets_cons, cover_cons]
      · -- it is used up
        rw [if_neg hlt]
        obtain ⟨hpair, hsub⟩ := cloneNext_spec rgit hl.2
        rw [sets_cons, pairwise_cons_iff, cover_cons, sets_cons, cover_cons]
        exact ⟨⟨(hl.1.mono_left hnew).mono_right hsub, hpair⟩, Set.union_subset_union hnew hsub⟩
    · -- the loop goes on
      rw [decide_eq_false hfits] at hfit
      obtain ⟨hsome, hpair, hsub⟩ := ih hfit hl.2
      rw [carve_cons_of_not_fits hfits]
      rw [sets_cons, pairwise_cons_iff] at hpair
      rw [sets_cons, cover_cons, Set.union_subset_iff] at hsub
      refine ⟨hsome, ?_, ?_⟩
      · rw [sets_cons, sets_cons, pairwise_cons_iff, pairwise_cons_iff, cover_cons, Set.disjoint_union_right]
        exact ⟨⟨(hl.1.mono_right hsub.1).symm, hpair.1⟩, hl.1.mono_right hsub.2, hpair.2⟩
      · rw [sets_cons, sets_cons, cover_cons, cover_cons, sets_cons, cover_cons]
        refine Set.union_subset (hsub.1.trans Set.subset_union_right) ?_
        exact Set.union_subset_union_right _ hsub.2

/-! ## What the two calls do -/

/-- The `int` that `get_free_vmrg_area` gets for a size, as it is added to addresses. -/
def intSize (size : AddrT) : AddrT := (size.setWidth 32 : BitVec 32).signExtend 64

/-- The area that `vmaid` 0 stands for, and its position. -/
structure AreaZero (mm : MmStruct) (i : ℕ) (vma : VmAreaStruct) : Prop where
  byNum : getVmaByNum mm 0 = .ok (some i)
  mmap : mm.mmap[i]? = some vma

/-- `old_sbrk`: an `int`. -/
def oldSbrk (vma : VmAreaStruct) : AddrT := (vma.sbrk.setWidth 32 : BitVec 32).signExtend 64

/-- The region that `get_free_vmrg_area` finds for an allocation. -/
def foundRegion (size : AddrT) (vma : VmAreaStruct) : Option VmRgStruct :=
  (carve (intSize size) vma.vmFreergList).1.filter (·.rgStart != -1)

/-- The address space after `get_free_vmrg_area`, and after the region is recorded. -/
def recordRegion (mm : MmStruct) (i : ℕ) (vma : VmAreaStruct) (size : AddrT) (r : Fin pagingMaxSymtblSz) : MmStruct :=
  { mm with
    mmap := mm.mmap.set i { vma with vmFreergList := (carve (intSize size) vma.vmFreergList).2 }
    symrgtbl := mm.symrgtbl.set r ((foundRegion size vma).getD ⟨oldSbrk vma, oldSbrk vma + size⟩) r.isLt }

theorem AreaZero.getFreeVmrgArea_eq {mm : MmStruct} {i : ℕ} {vma : VmAreaStruct} (h : AreaZero mm i vma)
    (size : AddrT) :
    getFreeVmrgArea mm 0 (size.setWidth 32)
      = .ok (foundRegion size vma,
          { mm with mmap := mm.mmap.set i { vma with vmFreergList := (carve (intSize size) vma.vmFreergList).2 } }) := by
  have harea : areaAt mm (some i) = .ok (i, vma) := by
    rw [areaAt, h.mmap]
  rw [getFreeVmrgArea, h.byNum]
  show (areaAt mm (some i) >>= _) = _
  rw [harea]
  rfl

/-- **`liballoc` in any address space that has an area.** It always returns 0. -/
theorem liballoc_area (k : CharKind) (sched : SchedState ℕ) {s : Kernel} {x : ℕ} {mm : MmStruct} {i : ℕ}
    {vma : VmAreaStruct} (hm : s.mm x = some mm) (h : AreaZero mm i vma) (size : AddrT) (r : Fin pagingMaxSymtblSz)
    (junk : BYTE) :
    s.liballoc k sched x size (BitVec.ofNat 32 r) junk = .ok (0, s.setMm x (recordRegion mm i vma size r)) := by
  have hr : (BitVec.ofNat 32 r).toNat = r := by
    rw [BitVec.toNat_ofNat]
    exact Nat.mod_eq_of_lt (r.isLt.trans (by decide))
  have hset : ∀ (mm : MmStruct) rg,
      setSymrg mm (BitVec.ofNat 32 r).toNat rg = .ok { mm with symrgtbl := mm.symrgtbl.set r rg r.isLt } := by
    intro mm rg
    rw [hr]
    exact dif_pos r.isLt
  have hlt : i < mm.mmap.length := (List.getElem?_eq_some_iff.mp h.mmap).1
  unfold Kernel.liballoc Kernel.alloc recordRegion
  rw [Kernel.mmOf_eq_ok.mpr hm]
  simp only [bind, Except.bind, h.byNum, h.getFreeVmrgArea_eq]
  cases hfound : foundRegion size vma with
  | some rg => simp only [hset, Option.getD_some]
  | none =>
    -- the area grows
    obtain ⟨stat, regs, hsys⟩ := Kernel.syscall_inc k sched
      (s.setMm x { mm with mmap := mm.mmap.set i { vma with vmFreergList := (carve (intSize size) vma.vmFreergList).2 } })
      (pidOf x) ((0 : BitVec 32).signExtend 64) size junk
    simp only [areaAt, List.getElem?_set_self hlt, hsys]
    rw [Kernel.mmOf_eq_ok.mpr (Kernel.mm_setMm_self ..)]
    simp only [hset, Option.getD_none, Kernel.setMm, Function.update_idem]
    rfl

/-- An address space with the one area that `init_mm` gives it. -/
structure OneArea (mm : MmStruct) (vma : VmAreaStruct) : Prop where
  mmap : mm.mmap = [vma]
  vmId : vma.vmId = 0
  sbrk : vma.sbrk = 0

/-- The region of an allocation: the carved one, or else the addresses from `sbrk` on. -/
def newRegion (size : AddrT) (l : List VmRgStruct) : VmRgStruct :=
  ((carve (intSize size) l).1.filter (·.rgStart != -1)).getD ⟨0, size⟩

/-- The address space after an allocation. -/
def afterAlloc (mm : MmStruct) (vma : VmAreaStruct) (size : AddrT) (r : Fin pagingMaxSymtblSz) : MmStruct :=
  { mm with
    mmap := [{ vma with vmFreergList := (carve (intSize size) vma.vmFreergList).2 }]
    symrgtbl := mm.symrgtbl.set r (newRegion size vma.vmFreergList) r.isLt }

section

variable {mm : MmStruct} {vma : VmAreaStruct}

theorem OneArea.getVmaByNum_eq (h : OneArea mm vma) : getVmaByNum mm 0 = .ok (some 0) := by
  rw [getVmaByNum, h.mmap]
  show (getVmaLoop 0 0 [vma]).map some = _
  rw [getVmaLoop, h.vmId]
  rfl

theorem OneArea.areaZero (h : OneArea mm vma) : AreaZero mm 0 vma := by
  refine ⟨h.getVmaByNum_eq, ?_⟩
  rw [h.mmap]
  rfl

/-- **`liballoc` on a well-formed address space.** It always returns 0. -/
theorem liballoc_eq (k : CharKind) (sched : SchedState ℕ) {s : Kernel} {x : ℕ} (hm : s.mm x = some mm)
    (h : OneArea mm vma) (size : AddrT) (r : Fin pagingMaxSymtblSz) (junk : BYTE) :
    s.liballoc k sched x size (BitVec.ofNat 32 r) junk = .ok (0, s.setMm x (afterAlloc mm vma size r)) := by
  have hzero : oldSbrk vma = 0 := by
    rw [oldSbrk, h.sbrk]
    decide
  rw [liballoc_area k sched hm h.areaZero size r junk, recordRegion, afterAlloc, newRegion, foundRegion, hzero,
    zero_add, h.mmap]
  rfl

/-- The address space after `libfree` of a region. -/
def afterFree (mm : MmStruct) (vma : VmAreaStruct) (r : Fin pagingMaxSymtblSz) : MmStruct :=
  { mm with
    mmap := [{ vma with
      vmFreergList :=
        if (mm.symrgtbl.get r).rgEnd ≤ (mm.symrgtbl.get r).rgStart then vma.vmFreergList
        else mm.symrgtbl.get r :: vma.vmFreergList }]
    symrgtbl := mm.symrgtbl.set r ⟨0, 0⟩ r.isLt }

/-- **`libfree` on a well-formed address space.** It fails for the region `[0, 0)`. -/
theorem libfree_eq {s : Kernel} {x : ℕ} (hm : s.mm x = some mm) (h : OneArea mm vma)
    (r : Fin pagingMaxSymtblSz) :
    s.libfree x (BitVec.ofNat 32 r)
      = .ok (if mm.symrgtbl.get r = ⟨0, 0⟩ then (-1, s) else (0, s.setMm x (afterFree mm vma r))) := by
  have hr : getSymrgById (BitVec.ofNat 32 r) = some (r : ℕ) := by
    revert r
    decide
  have hget : symrgAt mm r = .ok (mm.symrgtbl.get r) := dif_pos r.isLt
  have hset : setSymrg mm r ⟨0, 0⟩ = .ok { mm with symrgtbl := mm.symrgtbl.set r ⟨0, 0⟩ r.isLt } := dif_pos r.isLt
  unfold Kernel.libfree Kernel.free
  simp only [hr, Kernel.mmOf_eq_ok.mpr hm, bind, Except.bind, hget]
  have hzero : ((mm.symrgtbl.get r).rgStart = 0 ∧ (mm.symrgtbl.get r).rgEnd = 0) ↔ mm.symrgtbl.get r = ⟨0, 0⟩ := by
    rw [VmRgStruct.mk.injEq]
  by_cases hlive : mm.symrgtbl.get r = ⟨0, 0⟩
  · rw [if_pos (hzero.mpr hlive), if_pos hlive]
  · rw [if_neg fun hc => hlive (hzero.mp hc), if_neg hlive]
    simp only [hset, enlistVmFreergList, h.mmap]
    unfold afterFree
    by_cases hempty : (mm.symrgtbl.get r).rgEnd ≤ (mm.symrgtbl.get r).rgStart
    · rw [if_pos hempty, if_pos hempty]
    · rw [if_neg hempty, if_neg hempty]

end

/-! ## Sequences of calls -/

/-- One call. -/
inductive RegionCall where
  | alloc (size : AddrT) (r : Fin pagingMaxSymtblSz)
  | free (r : Fin pagingMaxSymtblSz)

/-- A call of process `x`, with any queues and any uninitialised memory. -/
inductive RegionStep (k : CharKind) (x : ℕ) (s : Kernel) : RegionCall → Kernel → Prop where
  | alloc {sched size junk stat t} {r : Fin pagingMaxSymtblSz} :
      s.liballoc k sched x size (BitVec.ofNat 32 r) junk = .ok (stat, t) →
      RegionStep k x s (.alloc size r) t
  | free {stat t} {r : Fin pagingMaxSymtblSz} :
      s.libfree x (BitVec.ofNat 32 r) = .ok (stat, t) → RegionStep k x s (.free r) t

/-- Any calls of process `x` after a successful `init_mm`. `LinkOk` restricts what `vm_freerg_list` of the
    new area held: `init_mm` links its first region in front of that. -/
def regionSystem (k : CharKind) (x : ℕ) (LinkOk : List VmRgStruct → Prop) : Lts.System Kernel RegionCall where
  init s := ∃ (s₀ : Kernel) (m₀ m : MmStruct) (mram : MemphyStruct) (link : List VmRgStruct), LinkOk link ∧
    initMm m₀ s₀.mram link = (0, m, mram) ∧ s = Kernel.setMm { s₀ with mram } x m
  step := RegionStep k x

/-- The regions on `vm_freerg_list`, of every area. -/
def freeRegions (mm : MmStruct) : List VmRgStruct := mm.mmap.flatMap fun vma => vma.vmFreergList

/-- The addresses that each register holds. -/
def liveSets (mm : MmStruct) (i : Fin pagingMaxSymtblSz) : Set ℕ := (mm.symrgtbl.get i).bytes

/-- **No byte address is in two regions**, live or free. -/
def RegionsDisjoint (mm : MmStruct) : Prop := Separate (liveSets mm) (sets (freeRegions mm))

/-- A region with no address below `size`. -/
def ClearOf (size : AddrT) (rg : VmRgStruct) : Prop := rg.rgStart < rg.rgEnd → size ≤ rg.rgStart

/-- No other register and no free region holds an address below `size`. -/
def GrowthClear (mm : MmStruct) (r : Fin pagingMaxSymtblSz) (size : AddrT) : Prop :=
  (∀ j, j ≠ r → ClearOf size (mm.symrgtbl.get j)) ∧ ∀ rg ∈ freeRegions mm, ClearOf size rg

/-- **The allocations that keep regions apart.** One from the free list does not wrap around; one that
    grows the area, which also happens when the free region is at the address that stands for "not found",
    finds the addresses below `size` unused. -/
def AllocOk (mm : MmStruct) (size : AddrT) (r : Fin pagingMaxSymtblSz) : Prop :=
  match firstFit (intSize size) (freeRegions mm) with
  | none    => GrowthClear mm r size
  | some rg => rg.rgStart.toNat + (intSize size).toNat < 2 ^ 64 ∧ (rg.rgStart = -1 → GrowthClear mm r size)

/-- The calls that keep regions apart. -/
def CallOk (x : ℕ) (s : Kernel) : RegionCall → Prop
  | .alloc size r => ∀ mm, s.mm x = some mm → AllocOk mm size r
  | .free _       => True

/-! ## Every run -/

theorem OneArea.freeRegions_eq {mm : MmStruct} {vma : VmAreaStruct} (h : OneArea mm vma) :
    freeRegions mm = vma.vmFreergList := by
  rw [freeRegions, h.mmap, List.flatMap_cons, List.flatMap_nil, List.append_nil]

theorem get_set (v : Vector VmRgStruct pagingMaxSymtblSz) (r i : Fin pagingMaxSymtblSz) (rg : VmRgStruct) :
    (v.set r rg r.isLt).get i = if i = r then rg else v.get i := by
  show (v.set r rg r.isLt)[(i : ℕ)] = _
  by_cases hi : i = r
  · subst hi
    rw [if_pos rfl, Vector.getElem_set_self]
  · rw [if_neg hi, Vector.getElem_set_ne _ _ fun h => hi (Fin.ext h.symm)]
    rfl

theorem liveSets_set (mm : MmStruct) (l : List VmAreaStruct) (r : Fin pagingMaxSymtblSz) (rg : VmRgStruct) :
    liveSets { mm with mmap := l, symrgtbl := mm.symrgtbl.set r rg r.isLt }
      = Function.update (liveSets mm) r rg.bytes := by
  funext i
  rw [liveSets, get_set, Function.update_apply]
  split <;> rfl

/-- The invariant: one area, and no address twice. -/
structure RegionInv (x : ℕ) (s : Kernel) (mm : MmStruct) (vma : VmAreaStruct) : Prop where
  mmOf : s.mm x = some mm
  area : OneArea mm vma
  separate : Separate (liveSets mm) (sets vma.vmFreergList)

theorem disjoint_growth {size : AddrT} {rg : VmRgStruct} (h : ClearOf size rg) :
    Disjoint (VmRgStruct.bytes ⟨0, size⟩) rg.bytes := by
  by_cases hlt : rg.rgStart < rg.rgEnd
  · rw [Set.disjoint_left]
    intro a ha ha'
    exact absurd (ha.2.trans_le (h hlt)) (Nat.not_lt.mpr ha'.1)
  · rw [bytes_of_le (BitVec.not_lt.mp hlt)]
    exact Set.disjoint_empty _

/-- An allocation that meets the condition keeps regions apart. -/
theorem separate_afterAlloc {mm : MmStruct} {vma : VmAreaStruct} {x : ℕ} {s : Kernel} (h : RegionInv x s mm vma)
    {size : AddrT} {r : Fin pagingMaxSymtblSz} (hok : CallOk x s (.alloc size r)) :
    Separate (Function.update (liveSets mm) r (newRegion size vma.vmFreergList).bytes)
      (sets (carve (intSize size) vma.vmFreergList).2) := by
  have hgrow : GrowthClear mm r size → ∀ {free}, cover free ⊆ cover (sets vma.vmFreergList) →
      free.Pairwise Disjoint → Separate (Function.update (liveSets mm) r (VmRgStruct.bytes ⟨0, size⟩)) free := by
    intro hclear free hsub hfree
    apply (h.separate.shrink hfree hsub).grow
    · intro j hj
      exact disjoint_growth (hclear.1 j hj)
    · refine Disjoint.mono_right hsub (Set.disjoint_left.mpr ?_)
      rintro a ha ⟨S, hS, haS⟩
      obtain ⟨rg, hrg, rfl⟩ := List.mem_map.mp hS
      exact Set.disjoint_left.mp (disjoint_growth (hclear.2 rg (h.area.freeRegions_eq ▸ hrg))) ha haS
  have hcall := hok mm h.mmOf
  rw [AllocOk, h.area.freeRegions_eq] at hcall
  cases hfit : firstFit (intSize size) vma.vmFreergList with
  | none =>
    rw [hfit] at hcall
    rw [newRegion, carve_of_not_fits hfit]
    exact hgrow hcall (Set.Subset.refl _) h.separate.list
  | some rg =>
    rw [hfit] at hcall
    obtain ⟨hsome, hpair, hsub⟩ := carve_spec hfit hcall.1 h.separate.list
    rw [newRegion, hsome]
    by_cases hmax : rg.rgStart = -1
    · -- the region is taken for "not found"
      rw [Option.filter_some, if_neg (by simp [hmax])]
      rw [sets_cons, pairwise_cons_iff] at hpair
      rw [sets_cons, cover_cons, Set.union_subset_iff] at hsub
      exact hgrow (hcall.2 hmax) hsub.2 hpair.2
    · rw [Option.filter_some, if_pos (by simpa using hmax)]
      exact h.separate.take hpair hsub

theorem regionInv_step {k : CharKind} {x : ℕ} {s t : Kernel} {c : RegionCall} {mm : MmStruct}
    {vma : VmAreaStruct} (h : RegionInv x s mm vma) (hok : CallOk x s c) (hst : RegionStep k x s c t) :
    ∃ mm' vma', RegionInv x t mm' vma' := by
  cases hst with
  | @alloc sched size junk stat _ r hcall =>
    rw [liballoc_eq k sched h.mmOf h.area size r junk] at hcall
    obtain ⟨rfl, rfl⟩ : 0 = stat ∧ s.setMm x (afterAlloc mm vma size r) = t := by simpa using hcall
    refine ⟨_, _, ⟨Kernel.mm_setMm_self .., ⟨rfl, h.area.vmId, h.area.sbrk⟩, ?_⟩⟩
    rw [afterAlloc, liveSets_set]
    exact separate_afterAlloc h hok
  | @free stat _ r hcall =>
    rw [libfree_eq h.mmOf h.area r] at hcall
    by_cases hlive : mm.symrgtbl.get r = ⟨0, 0⟩
    · rw [if_pos hlive] at hcall
      obtain ⟨-, rfl⟩ : -1 = stat ∧ s = t := by simpa using hcall
      exact ⟨mm, vma, h⟩
    · rw [if_neg hlive] at hcall
      obtain ⟨-, rfl⟩ : 0 = stat ∧ s.setMm x (afterFree mm vma r) = t := by simpa using hcall
      refine ⟨_, _, ⟨Kernel.mm_setMm_self .., ⟨rfl, h.area.vmId, h.area.sbrk⟩, ?_⟩⟩
      rw [afterFree, liveSets_set, bytes_of_le (BitVec.le_refl _)]
      dsimp only
      split
      · exact h.separate.drop r
      · exact h.separate.release r

/-- What `init_mm` leaves in the structure. -/
theorem initMm_area {m₀ m : MmStruct} {mp mp' : MemphyStruct} {link : List VmRgStruct}
    (h : initMm m₀ mp link = (0, m, mp')) :
    m.mmap = [vma0 link] ∧ m.symrgtbl = Vector.replicate _ ⟨0, 0⟩ ∧ m.fifoPgn = [] := by
  unfold initMm at h
  split at h
  · exact absurd (congrArg Prod.fst h) (by simp)
  · obtain ⟨rfl, -⟩ := Prod.mk.inj (Prod.mk.inj h).2
    exact ⟨rfl, rfl, rfl⟩

theorem regionInv_init {k : CharKind} {x : ℕ} {s : Kernel}
    (hs : (regionSystem k x fun link => (sets link).Pairwise Disjoint).init s) :
    ∃ mm vma, RegionInv x s mm vma := by
  obtain ⟨s₀, m₀, m, mram, link, hlink, hinit, rfl⟩ := hs
  obtain ⟨hmmap, hsym, -⟩ := initMm_area hinit
  refine ⟨m, vma0 link, Kernel.mm_setMm_self .., ⟨hmmap, rfl, rfl⟩, ?_⟩
  have hempty : VmRgStruct.bytes ⟨0, 0⟩ = ∅ := bytes_of_le (BitVec.le_refl _)
  have hlive : ∀ i, liveSets m i = ∅ := by
    intro i
    rw [liveSets, hsym]
    show ((Vector.replicate pagingMaxSymtblSz (⟨0, 0⟩ : VmRgStruct))[(i : ℕ)]).bytes = ∅
    rw [Vector.getElem_replicate, hempty]
  refine ⟨?_, ?_, ?_⟩
  · intro i j _
    rw [hlive i]
    exact Set.empty_disjoint _
  · show (sets (⟨0, 0⟩ :: link)).Pairwise Disjoint
    rw [sets_cons, pairwise_cons_iff, hempty]
    exact ⟨Set.empty_disjoint _, hlink⟩
  · intro i
    rw [hlive i]
    exact Set.empty_disjoint _

/-- **Regions stay apart** in every run whose calls meet the condition. -/
theorem regions_disjoint (k : CharKind) (x : ℕ) (s : Kernel)
    (hs : ((regionSystem k x fun link => (sets link).Pairwise Disjoint).guard (CallOk x)).Reachable s)
    (mm : MmStruct) (hm : s.mm x = some mm) : RegionsDisjoint mm := by
  have hinv : ∃ mm vma, RegionInv x s mm vma := by
    apply hs.invariant
    · intro t ht
      exact regionInv_init (k := k) ht
    · rintro t c u ⟨mm, vma, h⟩ ⟨hst, hok⟩
      exact regionInv_step h hok hst
  obtain ⟨mm', vma, h⟩ := hinv
  obtain rfl : mm' = mm := Option.some.inj (h.mmOf.symm.trans hm)
  rw [RegionsDisjoint, h.area.freeRegions_eq]
  exact h.separate

/-- A kernel with one free frame and no process. -/
def oneFrame : Kernel := ⟨fun _ => none, ⟨fun _ => 0, 4096, true, 0, [0]⟩, ⟨fun _ => 0, 0, true, 0, []⟩⟩

/-- `init_mm` finds that frame. -/
theorem initMm_oneFrame : ∃ m₀ m mram, initMm m₀ oneFrame.mram [] = (0, m, mram) ∧ OneArea m (vma0 []) ∧
    m.symrgtbl = Vector.replicate _ ⟨0, 0⟩ := by
  obtain ⟨m, mram, h⟩ : ∃ m mram, initMm rawMm oneFrame.mram [] = (0, m, mram) :=
    ⟨_, _, rfl⟩
  obtain ⟨hmmap, hsym, -⟩ := initMm_area h
  exact ⟨_, m, mram, h, ⟨hmmap, rfl, rfl⟩, hsym⟩

/-- Register 0. -/
def regA : Fin pagingMaxSymtblSz := ⟨0, by decide⟩

/-- Register 1. -/
def regB : Fin pagingMaxSymtblSz := ⟨1, by decide⟩

theorem callOk_setMm {x : ℕ} {s : Kernel} {mm : MmStruct} {size : AddrT} {r : Fin pagingMaxSymtblSz}
    (h : AllocOk mm size r) : CallOk x (s.setMm x mm) (.alloc size r) := by
  intro mm' hmm'
  obtain rfl := Option.some.inj ((Kernel.mm_setMm_self ..).symm.trans hmm')
  exact h

/-- Register 0 gets 100 bytes, gives them back, and register 1 gets 40 of them. -/
theorem regions_disjoint_reuse : ∃ s mm,
    ((regionSystem .signed 0 fun link => (sets link).Pairwise Disjoint).guard (CallOk 0)).Reachable s ∧
      s.mm 0 = some mm ∧ mm.symrgtbl.get regB = ⟨0, 40⟩ ∧ freeRegions mm = [⟨40, 100⟩, ⟨0, 0⟩] ∧
      RegionsDisjoint mm := by
  obtain ⟨m₀, m, mram, hinit, harea, hsym⟩ := initMm_oneFrame
  let T := (regionSystem .signed 0 fun link => (sets link).Pairwise Disjoint).guard (CallOk 0)
  have h₀ : T.Reachable (Kernel.setMm { oneFrame with mram } 0 m) :=
    .init ⟨oneFrame, m₀, m, mram, [], .nil, hinit, rfl⟩
  -- the area grows by 100 bytes
  have hok₁ : AllocOk m 100 regA := by
    rw [AllocOk, harea.freeRegions_eq]
    refine ⟨fun j _ hlt => ?_, ?_⟩
    · rw [hsym] at hlt
      have hget : (Vector.replicate pagingMaxSymtblSz (⟨0, 0⟩ : VmRgStruct)).get j = ⟨0, 0⟩ :=
        Vector.getElem_replicate j.isLt
      rw [hget] at hlt
      exact absurd hlt (by decide)
    · rw [harea.freeRegions_eq]
      intro rg hrg hlt
      obtain rfl := List.mem_singleton.mp hrg
      exact absurd hlt (by decide)
  have h₁ := h₀.step ⟨.alloc (liballoc_eq .signed .static (Kernel.mm_setMm_self ..) harea 100 regA 0),
    callOk_setMm hok₁⟩
  -- register 0 gives them back
  have harea₁ : OneArea (afterAlloc m (vma0 []) 100 regA) (vma0 []) := ⟨rfl, rfl, rfl⟩
  have hlive : (afterAlloc m (vma0 []) 100 regA).symrgtbl.get regA = ⟨0, 100⟩ := by
    rw [afterAlloc, get_set, if_pos rfl]
    decide
  have hfree := libfree_eq (Kernel.mm_setMm_self (Kernel.setMm { oneFrame with mram } 0 m) 0 _) harea₁ regA
  rw [hlive, if_neg (by decide)] at hfree
  have h₂ := h₁.step ⟨.free hfree, trivial⟩
  -- and register 1 takes the first 40
  have harea₂ : OneArea (afterFree (afterAlloc m (vma0 []) 100 regA) (vma0 []) regA)
      { vma0 [] with vmFreergList := [⟨0, 100⟩, ⟨0, 0⟩] } := by
    refine ⟨?_, rfl, rfl⟩
    rw [afterFree, hlive]
    rfl
  have hok₃ : AllocOk (afterFree (afterAlloc m (vma0 []) 100 regA) (vma0 []) regA) 40 regB := by
    rw [AllocOk, harea₂.freeRegions_eq]
    exact ⟨by decide, fun hmax => absurd hmax (by decide)⟩
  have h₃ := h₂.step ⟨.alloc (liballoc_eq .signed .static (Kernel.mm_setMm_self ..) harea₂ 40 regB 0),
    callOk_setMm hok₃⟩
  refine ⟨_, _, h₃, Kernel.mm_setMm_self .., ?_, rfl, ?_⟩
  · rw [afterAlloc, get_set, if_pos rfl]
    decide
  · exact regions_disjoint .signed 0 _ h₃ _ (Kernel.mm_setMm_self ..)

/-- **Two allocations that grow the area** get overlapping regions. -/
theorem regions_overlap : ¬ ∀ (k : CharKind) (x : ℕ) (s : Kernel),
    (regionSystem k x fun _ => True).Reachable s → ∀ mm, s.mm x = some mm → RegionsDisjoint mm := by
  intro hall
  obtain ⟨m₀, m, mram, hinit, harea, -⟩ := initMm_oneFrame
  have h₀ : (regionSystem .signed 0 fun _ => True).Reachable (Kernel.setMm { oneFrame with mram } 0 m) :=
    .init ⟨oneFrame, m₀, m, mram, [], trivial, hinit, rfl⟩
  have h₁ := h₀.step (.alloc (liballoc_eq .signed .static (Kernel.mm_setMm_self ..) harea 300 regA 0))
  have harea₁ : OneArea (afterAlloc m (vma0 []) 300 regA) (vma0 []) := ⟨rfl, rfl, rfl⟩
  have h₂ := h₁.step (.alloc (liballoc_eq .signed .static (Kernel.mm_setMm_self ..) harea₁ 100 regB 0))
  have hdisj := (hall _ _ _ h₂ _ (Kernel.mm_setMm_self ..)).owners (show regA ≠ regB by decide)
  have hA : (0 : ℕ) ∈ liveSets (afterAlloc (afterAlloc m (vma0 []) 300 regA) (vma0 []) 100 regB) regA := by
    rw [liveSets, afterAlloc, get_set, if_neg (by decide), afterAlloc, get_set, if_pos rfl]
    exact ⟨by decide, by decide⟩
  have hB : (0 : ℕ) ∈ liveSets (afterAlloc (afterAlloc m (vma0 []) 300 regA) (vma0 []) 100 regB) regB := by
    rw [liveSets, afterAlloc, get_set, if_pos rfl]
    exact ⟨by decide, by decide⟩
  exact Set.disjoint_left.mp hdisj hA hB

end LamiaAtrium
